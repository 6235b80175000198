import PathGlob.Proofs.Namespace.Matches
import PathGlob.Proofs.Segments
import PathGlob.Proofs.Walk.Termination

/-! # Walks of a namespace
A walk through a namespace yields what its segments find. The walk goes by paths and takes segments
without wildcards together; what is proved here is that a path always leads to the place at which the
recursion on segments stands.

* **`Scope.Reaches`** — a path of a walk leads to a place; **`Scope.Reaches.joinPath`** follows it
  one part further.
* **`Namespace.IsTree.yields_visit`** — the outcome of a visit is what the segments find.
* **`Namespace.IsTree.yields_startJobs`** — so is that of a whole walk.
* **`Namespace.IsTree.descends_wellFounded`** — no chain of directories goes down for ever.
* **`Namespace.Reachable.ends_startJobs`** — the walk of any pattern ends. -/

namespace PathGlob

variable {s : Namespace} {sc : Scope} {l : Location} {base : Text}

/-! ## Paths of a walk -/

/-- A text that does not begin with a separator. -/
def IsInner (t : Text) : Prop := ∀ c ∈ t.head?, c ≠ '/' ∧ c ≠ '\\'

/-- Something that is inner stays so if more follows. -/
theorem IsInner.append {t : Text} (h : IsInner t) (hne : t ≠ []) (u : Text) : IsInner (t ++ u) := by
  cases t with
  | nil => exact absurd rfl hne
  | cons c t => exact h

/-- Without separators a text is inner. -/
theorem IsInner.of_not_mem {t : Text} (hs : '/' ∉ t) (hb : '\\' ∉ t) : IsInner t := by
  intro c hc
  have hmem : c ∈ t := List.mem_of_mem_head? hc
  exact ⟨fun he => hs (he ▸ hmem), fun he => hb (he ▸ hmem)⟩

/-- **A path of the walk leads to the place `l`.** In a relative walk it begins with a reference to
the directory in which the walk started, and only there. -/
structure Scope.Reaches (sc : Scope) (s : Namespace) (base : Text) (l : Location) : Prop where
  /-- The path does not end inside an escape. -/
  whole : sc.flags.Whole base
  /-- The place that the provider sees. -/
  place : s.locate (sc.queryPath base) = l
  /-- The path is not empty. -/
  ne_nil : sc.queryPath base ≠ []
  /-- A relative walk stays behind the reference to where it started. -/
  inner : sc.relative = true → sc.queryPath base = currentDirectory ∨
    ∃ r, sc.queryPath base = '.' :: '/' :: r ∧ IsInner r

/-- A text that is inner is found where a relative walk started. -/
theorem locateFrom_inner (start : Location) {r : Text} (h : IsInner r) :
    locateFrom start ('.' :: '/' :: r) = locateFrom start r := by
  have horigin : originOf start r = start := by
    cases r with
    | nil => rfl
    | cons c r =>
      obtain ⟨hs, hb⟩ := h c rfl
      simp [originOf, beginsWith, withSlashes, hb, Ne.symm hs]
  rw [← List.singleton_append, locateFrom_append_slash start (by simp), locateFrom_eq start r,
    horigin]
  rfl

/-- **The path at which an entry is tested leads to the same place.** -/
theorem Scope.Reaches.locate_candidatePath (h : sc.Reaches s base l) :
    s.locate (sc.candidatePath base) = l := by
  rw [← h.place]
  unfold Scope.candidatePath
  split
  · rename_i r hr
    split
    · -- a relative walk drops the reference, and what is left does not begin with a separator
      rename_i hrel
      rcases h.inner hrel with hq | ⟨r', hq, hin⟩
      · rw [hr] at hq
        cases hq
      · rw [hr] at hq
        obtain rfl : r = r' := by simpa using hq
        rw [hr]
        exact (locateFrom_inner s.cwd hin).symm
    · rw [hr]
  · rfl

/-- A path is followed further if a relative walk stays behind the reference to where it started. -/
theorem Scope.Reaches.extend (h : sc.Reaches s base l) {t : Text} (ht : sc.flags.Whole t)
    (hin : sc.relative = true →
      ∃ r, PathGlob.joinPath (sc.queryPath base) (sc.flags.plainText t) = '.' :: '/' :: r ∧
        IsInner r) :
    sc.Reaches s (PathGlob.joinPath base t)
      (follow l (pieces '/' (withSlashes (sc.flags.plainText t)))) := by
  have hq : sc.queryPath (PathGlob.joinPath base t) =
      PathGlob.joinPath (sc.queryPath base) (sc.flags.plainText t) := h.whole.plainText_joinPath t
  refine ⟨h.whole.joinPath ht, ?_, ?_, fun hrel => .inr ?_⟩
  · rw [hq, ← h.place]
    exact locateFrom_joinPath s.cwd h.ne_nil _
  · rw [hq]
    exact joinPath_ne_nil _ _
  · rw [hq]
    exact hin hrel

/-- **A path is followed one part further.** -/
theorem Scope.Reaches.joinPath (h : sc.Reaches s base l) {t : Text} (ht : sc.flags.Whole t)
    (hin : IsInner (sc.flags.plainText t)) :
    sc.Reaches s (PathGlob.joinPath base t)
      (follow l (pieces '/' (withSlashes (sc.flags.plainText t)))) := by
  refine h.extend ht fun hrel => ?_
  rcases h.inner hrel with hb | ⟨r, hb, hr⟩
  · -- the part is the first one behind the reference
    rw [hb]
    exact ⟨_, rfl, hin⟩
  · rw [hb]
    cases r with
    | nil => exact ⟨_, rfl, hin⟩
    | cons c r =>
      -- what stands behind the reference begins as before
      unfold PathGlob.joinPath
      split
      · exact ⟨_, rfl, hr.append (by simp) _⟩
      · exact ⟨_, rfl, hr.append (by simp) _⟩

/-- A separator at the end of a path does not change where an absolute walk is. -/
theorem Scope.Reaches.slash_end (h : sc.Reaches s base l) (hrel : sc.relative = false) :
    sc.Reaches s (base ++ ['/']) l := by
  have hq : sc.queryPath (base ++ ['/']) = sc.queryPath base ++ ['/'] := h.whole.plainText_slash
  refine ⟨h.whole.append (Flags.Whole.of_not_mem (by decide)), ?_, by rw [hq]; simp, by simp [hrel]⟩
  rw [hq, ← h.place]
  exact locateFrom_slash_end s.cwd h.ne_nil

/-- A listed name is followed to the child. -/
theorem Scope.Reaches.name (h : sc.Reaches s base l) {name : Text} (hname : IsName name) :
    sc.Reaches s (PathGlob.joinPath base (sc.nameText name)) (name :: l) := by
  have hplain := sc.plainText_nameText name
  have hstep := h.joinPath (sc.whole_nameText name) (by
    rw [hplain]
    exact IsInner.of_not_mem hname.slash_not_mem hname.backslash_not_mem)
  rwa [hplain, withSlashes_of_not_mem hname.backslash_not_mem,
    pieces_of_not_mem hname.slash_not_mem, follow_cons, follow_nil, stepInto_of_isName hname]
    at hstep

/-- The names of a directory itself and its parent are followed as such. -/
theorem Scope.Reaches.special (h : sc.Reaches s base l) {name : Text}
    (hname : name ∈ [currentDirectory, parentDirectory]) :
    sc.Reaches s (PathGlob.joinPath base name) (stepInto l name) := by
  have hchars := not_mem_of_mem_references hname
  have hplain : sc.flags.plainText name = name := Flags.plainText_of_not_mem hchars.2
  have hstep := h.joinPath (Flags.Whole.of_not_mem hchars.2) (by
    rw [hplain]
    exact IsInner.of_not_mem hchars.1 hchars.2)
  rwa [hplain, withSlashes_of_not_mem hchars.2, pieces_of_not_mem hchars.1, follow_cons, follow_nil]
    at hstep

/-! ## Joined segments -/

variable {fs : Flags} {d : Bool} {seg : Text} {lits rest segs : List Text}

/-- Segments that mean themselves are joined to a well-escaped text. -/
theorem CleanSegments.wellEscaped (h : CleanSegments fs d segs) :
    WellEscaped fs.escapes (joinWith ['/'] segs) := by
  induction segs with
  | nil => exact .nil
  | cons seg rest ih =>
    cases rest with
    | nil => exact h.1.escaped
    | cons seg' rest =>
      rw [joinWith_cons seg (by simp)]
      exact h.1.escaped.append (.char (by decide) (ih h.2.2))

/-- Their escapes are removed segment by segment. -/
theorem CleanSegments.plainText_joinWith (h : CleanSegments fs d segs) :
    fs.plainText (joinWith ['/'] segs) = joinWith ['/'] (segs.map fs.plainText) := by
  induction segs with
  | nil => simp
  | cons seg rest ih =>
    cases rest with
    | nil => rfl
    | cons seg' rest =>
      rw [joinWith_cons seg (by simp), h.1.escaped.whole, Flags.plainText_cons (by decide),
        ih h.2.2]
      exact (joinWith_cons (fs.plainText seg) (by simp)).symm

/-- Segments stay clean if those behind are left out. -/
theorem CleanSegments.take (h : CleanSegments fs d (lits ++ rest)) : CleanSegments fs d lits := by
  induction lits with
  | nil => trivial
  | cons lit lits ih =>
    exact ⟨h.1, fun he => (h.2.1 he).imp_left fun hnil => (List.append_eq_nil_iff.1 hnil).1,
      ih h.2.2⟩

/-- **Several segments without wildcards are followed at once.** -/
theorem Scope.Reaches.segments (h : sc.Reaches s base l) (hne : lits ≠ [])
    (hclean : CleanSegments sc.flags d lits) :
    sc.Reaches s (PathGlob.joinPath base (joinWith ['/'] lits))
      (follow l (lits.map sc.flags.plainText)) := by
  have hslash : ∀ t ∈ lits.map sc.flags.plainText, '/' ∉ t := by
    intro t ht
    obtain ⟨lit, hlit, rfl⟩ := List.mem_map.1 ht
    exact fun hs => (hclean.mem hlit).slash (mem_of_mem_plainText hs)
  have hback : '\\' ∉ sc.flags.plainText (joinWith ['/'] lits) :=
    hclean.wellEscaped.not_mem_plainText
  have hin : IsInner (sc.flags.plainText (joinWith ['/'] lits)) := by
    cases lits with
    | nil => exact absurd rfl hne
    | cons lit lits =>
      have hlit := IsInner.of_not_mem (hslash _ List.mem_cons_self)
        hclean.1.escaped.not_mem_plainText
      rw [hclean.plainText_joinWith, List.map_cons]
      by_cases he : lit = []
      · -- an empty segment stands alone
        obtain ⟨rfl, -⟩ := hclean.2.1 he
        exact hlit
      · have hplain := (hclean.1.isName he).ne_nil
        cases lits with
        | nil => exact hlit
        | cons lit' lits =>
          rw [joinWith_cons _ (by simp)]
          exact hlit.append hplain _
  have hstep := h.joinPath hclean.wellEscaped.whole hin
  rwa [withSlashes_of_not_mem hback, hclean.plainText_joinWith,
    pieces_joinWith (by simpa using hne) hslash] at hstep

/-! ## What follows a part -/

/-- What remains of a pattern behind its first segment, none if that is the last one. -/
def restOf (rest : List Text) : Option Text :=
  if rest = [] then none else some (joinWith ['/'] rest)

@[simp] theorem restOf_nil : restOf [] = none := rfl

theorem restOf_of_ne_nil (h : rest ≠ []) : restOf rest = some (joinWith ['/'] rest) := if_neg h

theorem isNone_restOf : (restOf rest).isNone = rest.isEmpty := by cases rest <;> rfl

/-- A segment with a wildcard is a part of its own. -/
theorem CleanSegments.next_wild (h : CleanSegments fs d (seg :: rest)) (hw : fs.isWild seg = true) :
    Part.next fs.escapes (joinWith ['/'] (seg :: rest)) = ⟨seg, true, restOf rest⟩ := by
  by_cases hr : rest = []
  · subst hr
    exact Part.next_segment (h.1.wildSegment hw)
  · rw [joinWith_cons seg hr, Part.next_segment_cons (h.1.wildSegment hw), restOf_of_ne_nil hr]

/-- Segments without wildcards at the front are a part. -/
theorem CleanSegments.next_literals (hne : lits ≠ []) (h : CleanSegments fs d (lits ++ rest))
    (hw : ∀ lit ∈ lits, fs.isWild lit = false) (hrest : ∀ seg ∈ rest.head?, fs.isWild seg = true) :
    Part.next fs.escapes (joinWith ['/'] (lits ++ rest)) =
      ⟨joinWith ['/'] lits, false, restOf rest⟩ := by
  have hlits := fs.isWild_joinWith (fun lit hlit => (h.take.mem hlit).escaped) hw
  cases rest with
  | nil =>
    rw [List.append_nil]
    exact Part.next_of_not_isWild hlits
  | cons seg rest =>
    have hseg := h.of_append.1.wildSegment (hrest seg rfl)
    obtain ⟨tail, htail⟩ := exists_joinWith_cons (c := '/') seg rest
    rw [joinWith_append hne (by simp), restOf_of_ne_nil (by simp), htail]
    exact Part.next_lead h.take.wellEscaped hlits hseg tail

/-! ## Outcomes -/

/-- A directory is found at a path that leads to one. -/
theorem Scope.Reaches.findDirectory_isSome (h : sc.Reaches s base l) :
    (s.provider.findDirectory (sc.queryPath base)).isSome ↔ s.kind? l = some .directory := by
  show (s.directoryAt? (s.locate (sc.queryPath base))).isSome ↔ _
  rw [h.place, Namespace.directoryAt?]
  split <;> simp [*]

/-- The test of a path yields the entry at its place. -/
theorem Scope.Reaches.yields_candidate (h : sc.Reaches s base l) :
    Yields s.provider [.candidate sc base] (s.entryAt? sc.directoriesOnly l).toList := by
  have hplace := h.locate_candidatePath
  have hyields := PathGlob.yields_candidate (p := s.provider) sc base
  have hentry : s.provider.entryAt? sc.directoriesOnly (sc.candidatePath base) =
      s.entryAt? sc.directoriesOnly l := by
    rw [← hplace]
    rfl
  rwa [hentry] at hyields

/-- **Going on behind a part yields what the remaining segments find**, whatever the path. -/
def Scope.Continues (sc : Scope) (s : Namespace) (rest : List Text) : Prop :=
  ∀ path l, sc.Reaches s path l → Yields s.provider [continueAt sc path (restOf rest)]
    (s.matchSegments sc.flags sc.directoriesOnly rest l false)

/-- Where no segments remain, going on is the test of the path. -/
theorem Scope.continues_nil (sc : Scope) (s : Namespace) : sc.Continues s [] := by
  intro path l h
  rw [Namespace.matchSegments_nil]
  exact h.yields_candidate

/-- **Going on at the names of a directory** yields what `behind` gives for their places, be they listed
or those of the directory itself and its parent. -/
def Scope.GoesOn (sc : Scope) (s : Namespace) (rest? : Option Text)
    (behind : Location → List Entry) : Prop :=
  ∀ base l, sc.Reaches s base l →
    (∀ name, IsName name → Yields s.provider
      [continueAt sc (PathGlob.joinPath base (sc.nameText name)) rest?] (behind (name :: l))) ∧
    ∀ name ∈ [currentDirectory, parentDirectory], Yields s.provider
      [continueAt sc (PathGlob.joinPath base name) rest?] (behind (stepInto l name))

/-- Where going on yields what the remaining segments find, it does so at names. -/
theorem Scope.Continues.goesOn (h : sc.Continues s rest) :
    sc.GoesOn s (restOf rest) fun l =>
      s.matchSegments sc.flags sc.directoriesOnly rest l false :=
  fun _ _ hbase => ⟨fun _ hname => h _ _ (hbase.name hname), fun _ hname => h _ _ (hbase.special hname)⟩

variable {rest? : Option Text} {behind : Location → List Entry}

/-- The names of a directory itself and its parent yield what is behind their places. -/
theorem Scope.Reaches.yields_specialJobs (h : sc.Reaches s base l) {pattern : Text}
    (hpart : Part.next sc.flags.escapes pattern = ⟨seg, true, rest?⟩)
    (hrest : sc.GoesOn s rest? behind) :
    Yields s.provider (specialJobs sc base pattern)
      ((specialNames sc.flags seg rest?.isNone).flatMap fun name => behind (stepInto l name)) := by
  rw [specialJobs_eq, hpart]
  exact Yields.map fun name hname => (hrest _ _ h).2 name (mem_references_of_mem_specialNames hname)

/-- The names of a listing yield what is found for those that match. -/
theorem yields_nameJobs {pattern : Text} {names : List Text} {found : Text → List Entry}
    (hpart : Part.next sc.flags.escapes pattern = ⟨seg, true, rest?⟩)
    (h : ∀ name ∈ names, nameMatches sc.flags seg name = true →
      Yields s.provider (nameJobs sc base pattern name) (found name)) :
    Yields s.provider (names.flatMap (nameJobs sc base pattern))
      ((names.filter (nameMatches sc.flags seg)).flatMap found) := by
  induction names with
  | nil => exact Yields.nil
  | cons name names ih =>
    have htail := ih fun x hx => h x (by simp [hx])
    rw [List.flatMap_cons]
    by_cases hm : nameMatches sc.flags seg name = true
    · rw [List.filter_cons_of_pos hm, List.flatMap_cons]
      exact (h name (by simp) hm).append htail
    · rw [List.filter_cons_of_neg hm, nameJobs_of_not_matches (by rwa [hpart])]
      exact htail

/-- **The listing for a segment with a wildcard** yields what is behind the names that match. -/
theorem Namespace.IsTree.yields_enumerate (hs : s.IsTree) (h : sc.Reaches s base l) {pattern : Text}
    (hpart : Part.next sc.flags.escapes pattern = ⟨seg, true, rest?⟩)
    (hseg : seg ≠ doubleStar) (hrest : sc.GoesOn s rest? behind) :
    Yields s.provider [.enumerate sc base pattern]
      (((s.childNames l).filter (nameMatches sc.flags seg)).flatMap (fun name => behind (name :: l)) ++
        (specialNames sc.flags seg rest?.isNone).flatMap fun name => behind (stepInto l name)) := by
  refine PathGlob.yields_enumerate ?_ (h.yields_specialJobs hpart hrest)
  rw [hs.map_entryName_children, h.place]
  apply yields_nameJobs hpart
  intro name hname hm
  rw [nameJobs_of_matches (by rwa [hpart]), hpart, if_neg hseg]
  exact (hrest _ _ h).1 name (hs.isName_of_mem_childNames hname)

/-- **The listing for a `**`** yields what the `**` finds below the place. The induction goes down the
directories; each is listed for the same pattern. -/
theorem Namespace.IsTree.yields_enumerate_doubleStar (hs : s.IsTree) (h : sc.Reaches s base l)
    {pattern : Text} (hpart : Part.next sc.flags.escapes pattern = ⟨doubleStar, true, rest?⟩)
    (hrest : sc.GoesOn s rest? behind) :
    Yields s.provider [.enumerate sc base pattern]
      (s.sweep (nameMatches sc.flags doubleStar) behind
        (fun l' => (specialNames sc.flags doubleStar rest?.isNone).flatMap fun name =>
          behind (stepInto l' name)) l) := by
  induction l using s.directoryInduction generalizing base with
  | step l below =>
    rw [Namespace.sweep]
    refine PathGlob.yields_enumerate ?_ (h.yields_specialJobs hpart hrest)
    rw [hs.map_entryName_children, h.place]
    apply yields_nameJobs hpart
    intro name hname hm
    have hpath := h.name (hs.isName_of_mem_childNames hname)
    rw [nameJobs_of_matches (by rwa [hpart]), hpart, if_pos rfl]
    -- the rest of the pattern at the name, then the same pattern below it
    refine Yields.append ((hrest _ _ h).1 name (hs.isName_of_mem_childNames hname)) ?_
    by_cases hdir : s.kind? (name :: l) = some .directory
    · rw [if_pos hdir]
      apply PathGlob.yields_visit (hpath.findDirectory_isSome.2 hdir)
      have hagain : (visitJobs sc (PathGlob.joinPath base (sc.nameText name)) pattern true) =
          [(.enumerate sc (PathGlob.joinPath base (sc.nameText name)) pattern : Job Entry)] := by
        rw [visitJobs_wild (by rw [hpart]), if_neg (by simp)]
        rfl
      rw [hagain]
      exact below name hdir hpath
    · rw [if_neg hdir]
      exact yields_visit_of_none fun hfound => hdir (hpath.findDirectory_isSome.1 hfound)

/-- The visit with an empty pattern yields the directory. -/
theorem Scope.Reaches.yields_visit_nil (h : sc.Reaches s base l) (again : Bool)
    (hdir : s.kind? l = some .directory) :
    Yields s.provider [.visit sc base [] again] (s.entryAt? sc.directoriesOnly l).toList := by
  have hpath : sc.Reaches s (PathGlob.joinPath base []) l := by
    have hstep := h.joinPath (t := []) Flags.Whole.nil (by simp [IsInner])
    rwa [Flags.plainText_nil] at hstep
  exact PathGlob.yields_visit (h.findDirectory_isSome.2 hdir) hpath.yields_candidate

/-- The jobs in a directory for a segment with a wildcard. -/
theorem Namespace.IsTree.yields_visitJobs_wild (hs : s.IsTree) (h : sc.Reaches s base l)
    (hdir : s.kind? l = some .directory) (hclean : CleanSegments sc.flags d (seg :: rest))
    (hw : sc.flags.isWild seg = true) (hrest : sc.Continues s rest) {again : Bool}
    (hzero : rest ≠ [] → Yields s.provider [.visit sc base (joinWith ['/'] rest) true]
      (s.matchSegments sc.flags sc.directoriesOnly rest l true)) :
    Yields s.provider (visitJobs sc base (joinWith ['/'] (seg :: rest)) again)
      (s.matchSegments sc.flags sc.directoriesOnly (seg :: rest) l again) := by
  have hpart := hclean.next_wild hw
  rw [visitJobs_wild (by rw [hpart]), hpart]
  by_cases hseg : seg = doubleStar
  · subst hseg
    rw [Namespace.matchSegments_doubleStar hdir]
    simp only [true_and]
    refine Yields.append ?_ (isNone_restOf ▸ hs.yields_enumerate_doubleStar h hpart hrest.goesOn)
    cases again with
    | true => exact Yields.nil
    | false =>
      by_cases hr : rest = []
      · -- behind the last segment the directory is visited for the empty pattern
        subst hr
        simpa using h.yields_visit_nil true hdir
      · simpa [restOf_of_ne_nil hr] using hzero hr
  · rw [Namespace.matchSegments_wild hdir hw hseg]
    simpa [hseg, isNone_restOf] using hs.yields_enumerate h hpart hseg hrest.goesOn

/-- The jobs in a directory for segments without wildcards. -/
theorem Namespace.IsTree.yields_visitJobs_literals (hs : s.IsTree) (h : sc.Reaches s base l)
    (hdir : s.kind? l = some .directory) (hne : lits ≠ [])
    (hclean : CleanSegments sc.flags sc.directoriesOnly (lits ++ rest))
    (hw : ∀ lit ∈ lits, sc.flags.isWild lit = false)
    (hwild : ∀ seg ∈ rest.head?, sc.flags.isWild seg = true) (hrest : sc.Continues s rest)
    (again : Bool) :
    Yields s.provider (visitJobs sc base (joinWith ['/'] (lits ++ rest)) again)
      (s.matchSegments sc.flags sc.directoriesOnly (lits ++ rest) l again) := by
  have hpart := hclean.next_literals hne hw hwild
  rw [hs.matchSegments_literals hne hw hclean hdir, visitJobs_literal (by rw [hpart]), hpart]
  exact hrest _ _ (h.segments hne hclean.take)

/-- **The visit of a directory yields what the segments find from its place.** The induction is on the
number of segments, since those without wildcards are taken together. -/
theorem Namespace.IsTree.yields_visit (hs : s.IsTree) (h : sc.Reaches s base l) (hne : segs ≠ [])
    (hclean : CleanSegments sc.flags sc.directoriesOnly segs) (again : Bool) :
    Yields s.provider [.visit sc base (joinWith ['/'] segs) again]
      (s.matchSegments sc.flags sc.directoriesOnly segs l again) := by
  induction hn : segs.length using Nat.strongRecOn generalizing segs base l again with
  | _ n shorter =>
    have hcontinues : ∀ rest, rest.length < n → CleanSegments sc.flags sc.directoriesOnly rest →
        sc.Continues s rest := by
      intro rest hlen hrest
      by_cases hr : rest = []
      · subst hr
        exact sc.continues_nil s
      · intro path l' hpath
        rw [restOf_of_ne_nil hr]
        exact shorter _ hlen hpath hr hrest false rfl
    cases segs with
    | nil => exact absurd rfl hne
    | cons seg rest =>
      by_cases hdir : s.kind? l = some .directory
      · refine PathGlob.yields_visit (h.findDirectory_isSome.2 hdir) ?_
        have hlen : rest.length < n := by rw [← hn, List.length_cons]; omega
        cases hw : sc.flags.isWild seg with
        | true =>
          exact hs.yields_visitJobs_wild h hdir hclean hw (hcontinues rest hlen hclean.2.2)
            fun hr => shorter _ hlen h hr hclean.2.2 true rfl
        | false =>
          obtain ⟨lits, rest', hsplit, hlits, hrest'⟩ := exists_literals sc.flags (seg :: rest)
          cases lits with
          | nil =>
            -- the first segment has no wildcard, so it is one of those in front
            rw [List.nil_append] at hsplit
            have hwild := hrest' seg (by rw [← hsplit]; rfl)
            rw [hw] at hwild
            cases hwild
          | cons lit lits =>
            have hlen' : rest'.length < n := by
              rw [← hn, hsplit, List.length_append, List.length_cons]
              omega
            rw [hsplit] at hclean ⊢
            exact hs.yields_visitJobs_literals h hdir (by simp) hclean hlits hrest'
              (hcontinues rest' hlen' hclean.of_append) again
      · rw [Namespace.matchSegments_cons_of_ne hdir]
        exact yields_visit_of_none fun hfound => hdir (h.findDirectory_isSome.1 hfound)

/-! ## Whole walks -/

/-- The place at which the walk of a pattern starts. -/
def Namespace.startOf (s : Namespace) (pattern : Text) : Location :=
  if beginsWith ['/'] pattern then rootLocation else s.cwd

/-- A walk starts where the front of its pattern says. -/
theorem Namespace.startOf_append (s : Namespace) {pattern : Text} (h : pattern ≠ []) (t : Text) :
    s.startOf (pattern ++ t) = s.startOf pattern := by
  unfold Namespace.startOf
  rw [beginsWith_append_of_ne_nil h]

/-- A pattern with a separator is more than a `**`. -/
theorem ne_doubleStar_of_mem {pattern : Text} (h : '/' ∈ pattern) : pattern ≠ doubleStar := by
  rintro rfl
  exact absurd h (by decide)

/-- The walk of a relative pattern begins in the current directory. -/
theorem startJobs_of_relative {ε : Type} {pattern : Text} (hne : pattern ≠ [])
    (hstar : pattern ≠ doubleStar) (h : isAnchored pattern = false) :
    (startJobs fs pattern : List (Job ε)) =
      [.visit ⟨fs, endsIn '/' pattern, true⟩ currentDirectory pattern false] := by
  have hwalked : walkedPattern pattern = pattern := if_neg hstar
  simp [startJobs, hwalked, hne, h]

/-- The walk of an absolute pattern begins behind its leading segments. -/
theorem startJobs_of_absolute {ε : Type} (r : Text) :
    (startJobs fs ('/' :: r) : List (Job ε)) =
      let lead := (leadEnd? (marks fs.escapes ('/' :: r))).getD 0
      let scope : Bool → Scope := fun relative => ⟨fs, endsIn '/' ('/' :: r), relative⟩
      if lead = ('/' :: r).length then [.candidate (scope false) ('/' :: r)]
      else if lead = 0 then [.visit (scope true) currentDirectory ('/' :: r) false]
      else [.visit (scope false) (('/' :: r).take lead) (('/' :: r).drop lead) false] := by
  have hwalked : walkedPattern ('/' :: r) = '/' :: r := if_neg (ne_doubleStar_of_mem (by simp))
  unfold startJobs
  rw [hwalked]
  rfl

/-- The root is reached by a separator. -/
theorem Scope.reaches_root (sc : Scope) (s : Namespace) (h : sc.relative = false) :
    sc.Reaches s ['/'] rootLocation := by
  have hq : sc.queryPath ['/'] = ['/'] := Flags.plainText_of_not_mem (by decide)
  refine ⟨Flags.Whole.of_not_mem (by decide), ?_, by rw [hq]; simp, by simp [h]⟩
  rw [hq]
  rfl

/-- The current directory is reached by the reference to it. -/
theorem Scope.reaches_cwd (sc : Scope) (s : Namespace) :
    sc.Reaches s currentDirectory s.cwd := by
  have hq : sc.queryPath currentDirectory = currentDirectory :=
    Flags.plainText_of_not_mem (by decide)
  refine ⟨Flags.Whole.of_not_mem (by decide), ?_, by rw [hq]; simp [currentDirectory],
    fun _ => .inl hq⟩
  rw [hq]
  rfl

/-- The walk of an absolute pattern without wildcards is a single test. -/
theorem startJobs_of_literals {ε : Type} {r : Text} (hw : fs.isWild r = false) :
    (startJobs fs ('/' :: r) : List (Job ε)) =
      [.candidate ⟨fs, endsIn '/' ('/' :: r), false⟩ ('/' :: r)] := by
  have hlead : leadEnd? (marks fs.escapes ('/' :: r)) = some ('/' :: r).length := by
    simp [leadEnd?, Flags.isWild_eq_false_iff.1 hw]
  rw [startJobs_of_absolute, hlead]
  simp

/-- The walk of an absolute pattern with a wildcard begins where its leading segments lead. -/
theorem startJobs_of_lead {ε : Type} {r : Text} (lead tail : Text)
    (hr : '/' :: r = lead ++ '/' :: (seg ++ tail))
    (hl : WellEscaped fs.escapes lead) (hln : fs.isWild lead = false) (hseg : WildSegment fs seg) :
    (startJobs fs ('/' :: r) : List (Job ε)) =
      [.visit ⟨fs, endsIn '/' ('/' :: r), false⟩ (lead ++ ['/']) (seg ++ tail) false] := by
  -- the walk begins behind the separator that follows the leading segments
  have hlead : leadEnd? (marks fs.escapes ('/' :: r)) = some (lead.length + 1) := by
    rw [hr]
    exact leadEnd?_lead hl hln hseg tail
  have hne : seg ≠ [] := by
    rintro rfl
    cases hseg.wild
  have hpos : 0 < seg.length := List.length_pos_iff.2 hne
  have hlen : ('/' :: r).length = lead.length + 1 + seg.length + tail.length := by
    rw [hr]
    simp
    omega
  have hlt : ¬lead.length + 1 = ('/' :: r).length := by omega
  have hcut : '/' :: r = (lead ++ ['/']) ++ (seg ++ tail) := by rw [hr]; simp
  have htake : ('/' :: r).take (lead.length + 1) = lead ++ ['/'] := by
    rw [hcut]
    exact List.take_left' (by simp)
  have hdrop : ('/' :: r).drop (lead.length + 1) = seg ++ tail := by
    rw [hcut]
    exact List.drop_left' (by simp)
  rw [startJobs_of_absolute, hlead]
  simp only [Option.getD_some, if_neg hlt, if_neg (Nat.succ_ne_zero _), htake, hdrop]

/-- The walk of an absolute pattern yields what its segments find from the root. -/
theorem Namespace.IsTree.yields_startJobs_absolute (hs : s.IsTree) {r : Text}
    (hclean : CleanSegments fs (endsIn '/' ('/' :: r)) (pieces '/' r)) :
    Yields s.provider (startJobs fs ('/' :: r))
      (s.matchSegments fs (endsIn '/' ('/' :: r)) (pieces '/' r) rootLocation false) := by
  obtain ⟨lits, rest, hsplit, hlits, hrest⟩ := exists_literals fs (pieces '/' r)
  have hr : r = joinWith ['/'] (lits ++ rest) := by rw [← hsplit, joinWith_pieces]
  have hroot := Scope.reaches_root ⟨fs, endsIn '/' ('/' :: r), false⟩ s rfl
  have hslash : ∀ t : Text, PathGlob.joinPath ['/'] t = '/' :: t := fun _ => rfl
  have hne := pieces_ne_nil '/' r
  rw [hsplit] at hclean hne ⊢
  have hplain := fs.isWild_joinWith (fun lit hlit => (hclean.take.mem hlit).escaped) hlits
  cases rest with
  | nil =>
    -- there is no wildcard: the whole pattern is tested
    rw [List.append_nil] at hr hne
    have htest := (hroot.segments hne hclean.take).yields_candidate
    rw [hslash, ← hr] at htest
    rw [startJobs_of_literals (by rw [hr]; exact hplain),
      hs.matchSegments_literals hne hlits hclean s.kind?_root, Namespace.matchSegments_nil]
    exact htest
  | cons seg rest =>
    have hclean' := hclean.of_append
    have hseg := hclean'.1.wildSegment (hrest seg rfl)
    obtain ⟨tail, htail⟩ := exists_joinWith_cons (c := '/') seg rest
    by_cases hl : lits = []
    · -- the walk begins at the root
      subst hl
      rw [List.nil_append, htail] at hr
      rw [startJobs_of_lead [] tail (by rw [hr]; rfl) .nil rfl hseg, ← htail]
      exact hs.yields_visit hroot (by simp) hclean' false
    · -- the walk begins where the segments in front of the first wildcard lead
      rw [joinWith_append hl (by simp), htail] at hr
      have hlead := hroot.segments hl hclean.take
      have hnot : fs.isWild ('/' :: joinWith ['/'] lits) = false := by
        simpa [Flags.isWild] using hplain
      rw [hslash] at hlead
      rw [startJobs_of_lead ('/' :: joinWith ['/'] lits) tail (by rw [hr]; simp)
          (.char (by decide) hclean.take.wellEscaped) hnot hseg, ← htail,
        hs.matchSegments_literals hl hlits hclean s.kind?_root]
      exact hs.yields_visit (hlead.slash_end rfl) (by simp) hclean' false

/-- **A walk yields what the segments of its pattern find** from where it starts. -/
theorem Namespace.IsTree.yields_startJobs (hs : s.IsTree) (pattern : Text) (hne : pattern ≠ [])
    (hstar : pattern ≠ doubleStar) (hcolon : ':' ∉ pattern)
    (hclean : CleanSegments fs (endsIn '/' pattern) (segmentsOf pattern)) :
    Yields s.provider (startJobs fs pattern)
      (s.matchSegments fs (endsIn '/' pattern) (segmentsOf pattern) (s.startOf pattern) false) := by
  unfold segmentsOf Namespace.startOf at *
  by_cases ha : beginsWith ['/'] pattern = true
  · cases pattern with
    | nil => cases ha
    | cons c r =>
      obtain rfl : '/' = c := by simpa [beginsWith] using ha
      simp only [ha, if_true, pieces_cons_self, List.tail_cons] at hclean ⊢
      exact hs.yields_startJobs_absolute hclean
  · have hanchored : isAnchored pattern = false := by simp [isAnchored, ha, hcolon]
    simp only [ha] at hclean ⊢
    rw [startJobs_of_relative hne hstar hanchored]
    have hvisit := hs.yields_visit
      (Scope.reaches_cwd ⟨fs, endsIn '/' pattern, true⟩ s) (pieces_ne_nil '/' pattern) hclean false
    rwa [joinWith_pieces] at hvisit

/-! ## Walks end -/

/-- How many steps down are left from a path: no more than the height of the tree. The empty path is
the only one whose children are not found below its own place. -/
def Namespace.stepsLeft (s : Namespace) (path : Text) : Nat :=
  if path = [] then s.height + 1 else s.height - (s.locate path).length

/-- **No chain of directories of a namespace goes down for ever.** -/
theorem Namespace.IsTree.descends_wellFounded (hs : s.IsTree) :
    WellFounded s.provider.Descends := by
  refine Subrelation.wf ?_ (measure s.stepsLeft).wf
  rintro lower upper ⟨-, hlower, x, hx, rfl⟩
  have hname : s.provider.entryName x ∈ s.childNames (s.locate upper) := by
    rw [← hs.map_entryName_children]
    exact List.mem_map_of_mem hx
  have hdir : (s.kind? (s.locate (PathGlob.joinPath upper (s.provider.entryName x)))).isSome := by
    have hfound : (s.directoryAt? (s.locate (PathGlob.joinPath upper
        (s.provider.entryName x)))).isSome := hlower
    unfold Namespace.directoryAt? at hfound
    split at hfound
    · rename_i hk
      rw [hk]
      rfl
    · cases hfound
  have hproper := hs.isName_of_mem_childNames hname
  generalize s.provider.entryName x = name at *
  have hlen := Namespace.length_le_height hdir
  have hne := joinPath_ne_nil upper name
  show s.stepsLeft (PathGlob.joinPath upper name) < s.stepsLeft upper
  unfold Namespace.stepsLeft
  rw [if_neg hne]
  by_cases hu : upper = []
  · rw [if_pos hu]
    omega
  · rw [if_neg hu]
    -- the place of the lower directory is one name deeper
    have hplace : s.locate (PathGlob.joinPath upper name) = name :: s.locate upper := by
      have hjoin := locateFrom_joinPath s.cwd hu name
      rwa [withSlashes_of_not_mem hproper.backslash_not_mem, pieces_of_not_mem hproper.slash_not_mem,
        follow_cons, follow_nil, stepInto_of_isName hproper] at hjoin
    rw [hplace, List.length_cons] at hlen ⊢
    omega

/-- **Every walk of a namespace ends.** -/
theorem Namespace.Reachable.ends_startJobs (hs : s.Reachable) (fs : Flags) (pattern : Text) :
    Ends s.provider (startJobs fs pattern) :=
  PathGlob.ends_startJobs hs.isTree.1.descends_wellFounded fs pattern

end PathGlob
