import PathGlob.Proofs.Traversal.TrailingSeparators
import PathGlob.Proofs.Walk.Losses
import PathGlob.Proofs.Walk.Simulation

/-! # Directories that are lost at the end
With a separator at the end of a pattern, what its last segment leads to is visited before it is tested.
A relative walk is asked for a path as it stands, and tests it without the reference to where it started:
if what is behind the reference begins with a separator, these are two places. A directory is lost if
there is none at the first one.

* **`Job.Slashed`** — jobs of the walks of a pattern without and with a separator at its end.
* **`Job.LosesDirectory`**, **`Job.KeepsDirectories`** — where directories are lost.
* **`Namespace.IsTree.findsKeptIff_slashed`** — the comparison of two jobs.
* **`Namespace.Reachable.yields_append_slash`** — that of two walks;
  **`Namespace.twofold_append_slash_misses`** is a walk that loses a directory. -/

namespace PathGlob

variable {s : Namespace} {fs : Flags} {sc : Scope} {base path t w pattern : Text}

/-! ## Paths -/

/-- **A path that ends in a name**: it does not end inside an escape or in a separator. -/
structure Scope.EndsInName (sc : Scope) (path : Text) : Prop where
  /-- The path does not end inside an escape. -/
  whole : sc.flags.Whole path
  /-- The provider sees something. -/
  ne_nil : sc.queryPath path ≠ []
  /-- There is no separator at the end. -/
  slash : endsIn '/' path = false

/-- What does not end in a separator is joined to a path that ends in a name. -/
theorem Scope.endsInName_joinPath (hb : sc.flags.Whole base) (ht : sc.flags.Whole t) (hne : t ≠ [])
    (hend : endsIn '/' t = false) : sc.EndsInName (joinPath base t) where
  whole := hb.joinPath ht
  ne_nil := by
    rw [Scope.queryPath_eq, hb.plainText_joinPath]
    exact joinPath_ne_nil _ _
  slash := by
    unfold joinPath
    split
    · rwa [endsIn_append _ hne]
    · rwa [endsIn_append_cons _ _ hne]

/-- So does a listed name. -/
theorem Scope.endsInName_name (hb : sc.flags.Whole base) {name : Text} (hname : IsName name) :
    sc.EndsInName (joinPath base (sc.nameText name)) := by
  have hplain := sc.plainText_nameText name
  have hend : endsIn '/' (sc.flags.plainText (sc.nameText name)) = endsIn '/' (sc.nameText name) :=
    endsIn_plainText '/' _
  refine Scope.endsInName_joinPath hb (sc.whole_nameText name) ?_ ?_
  · intro hnil
    rw [hnil, Flags.plainText_nil] at hplain
    exact hname.ne_nil hplain.symm
  · rw [← hend, hplain]
    exact endsIn_of_not_mem hname.slash_not_mem

/-- So do the names of a directory itself and its parent. -/
theorem Scope.endsInName_special (hb : sc.flags.Whole base) {name : Text}
    (hname : name ∈ [currentDirectory, parentDirectory]) : sc.EndsInName (joinPath base name) := by
  have hchars := not_mem_of_mem_references hname
  refine Scope.endsInName_joinPath hb (.of_not_mem hchars.2) ?_ (endsIn_of_not_mem hchars.1)
  rintro rfl
  simp [currentDirectory, parentDirectory] at hname

/-- **A separator at the end makes no difference to where a path is tested.** -/
theorem Scope.EndsInName.locate_candidatePath (h : sc.EndsInName path) (s : Namespace) :
    s.locate (sc.candidatePath (path ++ ['/'])) = s.locate (sc.candidatePath path) := by
  have hquery : sc.queryPath (path ++ ['/']) = sc.queryPath path ++ ['/'] := h.whole.plainText_slash
  have hend : endsIn '/' (sc.queryPath path) = false := (endsIn_plainText '/' path).trans h.slash
  have hne := h.ne_nil
  unfold Scope.candidatePath
  rw [hquery]
  generalize sc.queryPath path = q at hend hne
  have hsame : s.locate (q ++ ['/']) = s.locate q := locateFrom_slash_end s.cwd hne
  by_cases hdot : q = currentDirectory
  · -- with the separator the path is a reference that a relative walk drops
    subst hdot
    cases sc.relative <;> rfl
  by_cases hlead : currentDirectory ++ ['/'] <+: q
  · -- a relative walk drops the same reference from both paths
    obtain ⟨r, rfl⟩ := hlead
    have hr : r ≠ [] := by
      rintro rfl
      cases hend
    show s.locate (if sc.relative then r ++ ['/'] else _) = s.locate (if sc.relative then r else _)
    split
    · exact locateFrom_slash_end s.cwd hr
    · exact hsame
  · -- nothing is dropped
    split
    · rename_i r hr
      have hprefix : currentDirectory ++ ['/'] <+: q ++ ['/'] := ⟨r, hr.symm⟩
      rcases List.prefix_concat_iff.1 hprefix with heq | hprefix
      · exact absurd (List.append_cancel_right heq).symm hdot
      · exact absurd hprefix hlead
    · split
      · exact absurd ⟨_, rfl⟩ hlead
      · exact hsame

/-! ## Jobs -/

/-- What remains behind a part does not end in a separator either. -/
theorem Unslashed.rest {rest : Text} (h : Unslashed w)
    (hr : (Part.next fs.escapes w).rest? = some rest) : Unslashed rest := by
  obtain ⟨c, hc, hsplit⟩ := (cuts_next fs w).exists_separator hr
  have hslash := h.slash
  rw [hsplit] at hslash
  have hne : rest ≠ [] := by
    -- otherwise the separator would be at the end
    rintro rfl
    rcases isSeparator_iff.1 hc with rfl | rfl
    · exact absurd (endsIn_iff.2 ⟨_, rfl⟩) (Bool.eq_false_iff.1 hslash)
    · exact h.colon (hsplit ▸ by simp)
  exact ⟨hne, (Part.not_mem h.backslash _).2 rest hr, (Part.not_mem h.colon _).2 rest hr,
    by rwa [endsIn_append_cons _ _ hne] at hslash⟩

/-- The scope of the same walk if only directories are wanted. -/
def Scope.forDirectories (sc : Scope) : Scope := { sc with directoriesOnly := true }

@[simp] theorem Scope.flags_forDirectories : sc.forDirectories.flags = sc.flags := rfl

@[simp] theorem Scope.queryPath_forDirectories : sc.forDirectories.queryPath = sc.queryPath := rfl

@[simp] theorem Scope.nameText_forDirectories : sc.forDirectories.nameText = sc.nameText := rfl

@[simp] theorem Scope.candidatePath_forDirectories :
    sc.forDirectories.candidatePath = sc.candidatePath := rfl

/-- **Jobs of a walk and of the walk with a separator at the end of its pattern.** -/
inductive Job.Slashed (s : Namespace) (sc : Scope) : Job Entry → Job Entry → Prop
  /-- The visits of a directory. -/
  | visit {base w : Text} {again : Bool} (hb : sc.flags.Whole base) (hw : Unslashed w) :
    Slashed s sc (.visit sc base w again) (.visit sc.forDirectories base (w ++ ['/']) again)
  /-- The listings of a directory. -/
  | enumerate {base w : Text} (hb : sc.flags.Whole base) (hw : Unslashed w)
    (hwild : sc.flags.isWild w = true) :
    Slashed s sc (.enumerate sc base w) (.enumerate sc.forDirectories base (w ++ ['/']))
  /-- Behind a last `**` that was taken for no directory there is nothing in either pattern. -/
  | nothing {base : Text} :
    Slashed s sc (.visit sc base [] true) (.visit sc.forDirectories base [] true)
  /-- Behind the last segment a path is tested, and with the separator it is visited. -/
  | last {path : Text} (hpath : sc.EndsInName path) :
    Slashed s sc (.candidate sc path) (.visit sc.forDirectories path [] false)
  /-- The tests of paths that mean the same. -/
  | tested {path path' : Text}
    (hplace : s.locate (sc.candidatePath path') = s.locate (sc.candidatePath path)) :
    Slashed s sc (.candidate sc path) (.candidate sc.forDirectories path')

/-- Going on behind a part: a last one is tested, or visited first with the separator. -/
theorem slashed_continueAt {rest? : Option Text} (hpath : sc.flags.Whole path)
    (hlast : rest? = none → sc.EndsInName path) (hr : ∀ rest, rest? = some rest → Unslashed rest) :
    Job.Slashed s sc (continueAt sc path rest?)
      (continueAt sc.forDirectories path (some ((rest?.map (· ++ ['/'])).getD []))) := by
  cases rest? with
  | none => exact .last (hlast rfl)
  | some rest => exact .visit hpath (hr rest rfl)

/-- The jobs in a directory correspond. -/
theorem forall₂_visitJobs_slashed (hb : sc.flags.Whole base) (hw : Unslashed w) (again : Bool) :
    List.Forall₂ (Job.Slashed s sc) (visitJobs sc base w again)
      (visitJobs sc.forDirectories base (w ++ ['/']) again) := by
  cases hwild : sc.flags.isWild w with
  | false =>
    -- all of the pattern is a single part, with the separator as well
    have hnext := Part.next_of_not_isWild hwild
    have hnext' := Part.next_of_not_isWild ((isWild_append_slash hw.backslash).trans hwild)
    have hpath := Scope.endsInName_joinPath hb (.of_not_mem hw.backslash) hw.ne_nil hw.slash
    have hslash : joinPath base (w ++ ['/']) = joinPath base w ++ ['/'] := by
      unfold joinPath
      split <;> simp
    rw [visitJobs_literal (by rw [hnext]),
      visitJobs_literal (by rw [Scope.flags_forDirectories, hnext']), Scope.flags_forDirectories,
      hnext, hnext', hslash]
    exact .cons (.tested (hpath.locate_candidatePath s)) .nil
  | true =>
    obtain ⟨part, hpart⟩ : ∃ part, Part.next sc.flags.escapes w = part := ⟨_, rfl⟩
    have hnext := next_append_slash hw.backslash hpart hwild
    have hrest : ∀ rest, part.rest? = some rest → Unslashed rest := fun rest hr =>
      hw.rest (hpart.symm ▸ hr)
    cases hpw : part.wild with
    | false =>
      rw [visitJobs_literal (by rw [hpart, hpw]),
        visitJobs_literal (by rw [Scope.flags_forDirectories, hnext, hpw]),
        Scope.flags_forDirectories, hnext, hpart]
      have hpath : sc.flags.Whole (joinPath base part.text) :=
        hb.joinPath (.of_not_mem (hpart ▸ (Part.not_mem hw.backslash _).1))
      refine .cons (slashed_continueAt hpath (fun hr => ?_) hrest) .nil
      -- a wildcard remains behind leading segments
      cases cuts_iff.2 hpart with
      | rest hw' => exact absurd hwild (by simp [hw'])
      | lead ht hc hw' hu hfirst => cases hr
      | last hw' hs => cases hpw
      | segment ht hc hw' hs => cases hpw
    | true =>
      rw [visitJobs_wild (by rw [hpart, hpw]),
        visitJobs_wild (by rw [Scope.flags_forDirectories, hnext, hpw]),
        Scope.flags_forDirectories, hnext, hpart]
      refine List.rel_append ?_ (.cons (.enumerate hb hw hwild) .nil)
      split
      · cases hr : part.rest? with
        | none => exact .cons .nothing .nil
        | some rest => exact .cons (.visit hb (hrest rest hr)) .nil
      · exact .nil

/-- The jobs for a listed name correspond. -/
theorem forall₂_nameJobs_slashed (hb : sc.flags.Whole base) (hw : Unslashed w)
    (hwild : sc.flags.isWild w = true) {name : Text} (hname : IsName name) :
    List.Forall₂ (Job.Slashed s sc) (nameJobs sc base w name)
      (nameJobs sc.forDirectories base (w ++ ['/']) name) := by
  have hnext := next_append_slash hw.backslash rfl hwild
  have hpath := Scope.endsInName_name hb hname
  unfold nameJobs
  simp only [Scope.flags_forDirectories, Scope.nameText_forDirectories, hnext]
  split
  · refine .cons (slashed_continueAt hpath.whole (fun _ => hpath) fun rest hr => hw.rest hr) ?_
    split
    · exact .cons (.visit hpath.whole hw) .nil
    · exact .nil
  · exact .nil

/-- The jobs for the directory itself and its parent correspond, if hidden names are not matched by
wildcards. -/
theorem forall₂_specialJobs_slashed (hdot : sc.flags.has .dotMatch = false)
    (hb : sc.flags.Whole base) (hw : Unslashed w) (hwild : sc.flags.isWild w = true) :
    List.Forall₂ (Job.Slashed s sc) (specialJobs sc base w)
      (specialJobs sc.forDirectories base (w ++ ['/'])) := by
  have hnext := next_append_slash hw.backslash rfl hwild
  rw [specialJobs_eq, specialJobs_eq, Scope.flags_forDirectories, hnext,
    specialNames_congr hdot _ (Part.next sc.flags.escapes w).rest?.isNone false,
    List.forall₂_map_left_iff, List.forall₂_map_right_iff]
  refine List.forall₂_same.2 fun name hname => ?_
  have hpath := Scope.endsInName_special hb (mem_references_of_mem_specialNames hname)
  exact slashed_continueAt hpath.whole (fun _ => hpath) fun rest hr => hw.rest hr

/-- The jobs that follow a visit correspond if those in a directory do. -/
theorem forall₂_next_visit_slashed {w' : Text} {again : Bool}
    (h : List.Forall₂ (Job.Slashed s sc) (visitJobs sc base w again)
      (visitJobs sc.forDirectories base w' again)) :
    List.Forall₂ (Job.Slashed s sc) ((Job.visit sc base w again).next s.provider)
      ((Job.visit sc.forDirectories base w' again).next s.provider) := by
  rw [Job.next_visit, Job.next_visit, Scope.queryPath_forDirectories]
  split
  · exact h
  · exact .nil

/-- The jobs that follow a listing correspond. -/
theorem Namespace.IsTree.forall₂_next_enumerate_slashed (hs : s.IsTree)
    (hdot : sc.flags.has .dotMatch = false) (hb : sc.flags.Whole base) (hw : Unslashed w)
    (hwild : sc.flags.isWild w = true) :
    List.Forall₂ (Job.Slashed s sc) ((Job.enumerate sc base w).next s.provider)
      ((Job.enumerate sc.forDirectories base (w ++ ['/'])).next s.provider) := by
  rw [Job.next_enumerate, Job.next_enumerate, Scope.queryPath_forDirectories,
    hs.map_entryName_children]
  exact List.rel_append
    (forall₂_flatMap fun name hname =>
      forall₂_nameJobs_slashed hb hw hwild (hs.isName_of_mem_childNames hname))
    (forall₂_specialJobs_slashed hdot hb hw hwild)

/-! ## What is lost -/

/-- **A visit loses a directory**: it comes behind the last segment of a pattern, and there is no
directory at its path, but there is one at the path that is tested. -/
def Job.LosesDirectory {ε : Type} (p : Provider ε) : Job ε → Prop
  | .visit sc path pattern again => pattern = [] ∧ again = false ∧
    p.findDirectory (sc.queryPath path) = none ∧ (p.findDirectory (sc.candidatePath path)).isSome
  | _ => False

/-- **No directory is lost behind a job.** -/
def Job.KeepsDirectories {ε : Type} (p : Provider ε) (t : Job ε) : Prop :=
  ∀ u, t.Leads p u → ¬u.LosesDirectory p

section

variable {ε : Type} {p : Provider ε}

/-- None is lost by the job itself and behind the jobs that follow. -/
theorem Job.keepsDirectories_iff {t : Job ε} :
    t.KeepsDirectories p ↔ ¬t.LosesDirectory p ∧ ∀ t' ∈ t.next p, t'.KeepsDirectories p :=
  Job.forall_leads_iff

/-- None is lost where an entry is handed out. -/
theorem keepsDirectories_deliver (e : ε) : (Job.deliver e).KeepsDirectories p :=
  Job.keepsDirectories_iff.2 ⟨id, fun _ h => nomatch h⟩

/-- Nor in the test for a file. -/
theorem keepsDirectories_tryFile (path : Text) : (Job.tryFile path : Job ε).KeepsDirectories p := by
  refine Job.keepsDirectories_iff.2 ⟨id, fun t ht => ?_⟩
  rw [Job.next_tryFile] at ht
  obtain ⟨e, -, rfl⟩ := List.mem_map.1 ht
  exact keepsDirectories_deliver e

/-- Nor in the test of a path. -/
theorem keepsDirectories_candidate (sc : Scope) (path : Text) :
    (Job.candidate sc path : Job ε).KeepsDirectories p := by
  refine Job.keepsDirectories_iff.2 ⟨id, fun t ht => ?_⟩
  rcases Job.next_candidate_cases p sc path with ⟨e, hnext⟩ | hnext | hnext
  · obtain rfl := List.mem_singleton.1 (hnext ▸ ht)
    exact keepsDirectories_deliver e
  · cases hnext ▸ ht
  · obtain rfl := List.mem_singleton.1 (hnext ▸ ht)
    exact keepsDirectories_tryFile _

/-- Behind the last segment a path is only tested. -/
theorem visitJobs_nil (sc : Scope) (path : Text) (again : Bool) :
    (visitJobs sc path [] again : List (Job ε)) = [.candidate sc (joinPath path [])] := rfl

/-- So no more than one directory can be lost. -/
theorem keepsDirectories_visit_nil_iff (sc : Scope) (path : Text) :
    (Job.visit sc path [] false : Job ε).KeepsDirectories p ↔
      (p.findDirectory (sc.candidatePath path)).isSome →
        (p.findDirectory (sc.queryPath path)).isSome := by
  have hnext : ∀ t ∈ (Job.visit sc path [] false : Job ε).next p, t.KeepsDirectories p := by
    intro t ht
    rw [Job.next_visit, visitJobs_nil] at ht
    split at ht
    · obtain rfl := List.mem_singleton.1 ht
      exact keepsDirectories_candidate _ _
    · cases ht
  rw [Job.keepsDirectories_iff, and_iff_left hnext]
  cases hquery : p.findDirectory (sc.queryPath path) <;> simp [Job.LosesDirectory, hquery]

end

/-- Tests of paths that mean the same find the same directories. -/
theorem Namespace.findsKeptIff_tested (hd : sc.directoriesOnly = false) {path' : Text}
    (hplace : s.locate (sc.candidatePath path') = s.locate (sc.candidatePath path)) :
    FindsKeptIff s.provider Entry.isDirectory [.candidate sc path]
      [.candidate sc.forDirectories path'] True := by
  have hfound : (s.provider.entryAt? sc.directoriesOnly (sc.candidatePath path)).toList.filter
      Entry.isDirectory = (s.provider.entryAt? true (sc.candidatePath path')).toList := by
    rw [hd]
    exact (Namespace.entryAt?_filter _).trans (by rw [← hplace]; rfl)
  refine ⟨_, _, yields_candidate sc path, yields_candidate sc.forDirectories path', ?_, ?_⟩
  · rw [hfound]
    exact List.Sublist.refl _
  · exact iff_true_intro hfound.symm

/-- Behind the last segment a directory is found with the separator as well, unless it is lost. -/
theorem Namespace.findsKeptIff_last (hd : sc.directoriesOnly = false) (hpath : sc.EndsInName path) :
    FindsKeptIff s.provider Entry.isDirectory [.candidate sc path]
      [.visit sc.forDirectories path [] false]
      ((Job.visit sc.forDirectories path [] false).KeepsDirectories s.provider) := by
  rw [keepsDirectories_visit_nil_iff, Scope.queryPath_forDirectories,
    Scope.candidatePath_forDirectories]
  by_cases hdir : (s.provider.findDirectory (sc.queryPath path)).isSome
  · have hslash : joinPath path [] = path ++ ['/'] := by simp [joinPath, hpath.slash]
    obtain ⟨es, ds, hes, hds, hsub, hall⟩ :=
      Namespace.findsKeptIff_tested hd (hpath.locate_candidatePath s)
    rw [← hslash] at hds
    exact ⟨es, ds, hes, yields_visit hdir hds, hsub, hall.trans (iff_of_true trivial fun _ => hdir)⟩
  · have hfound : (s.provider.entryAt? sc.directoriesOnly (sc.candidatePath path)).toList.filter
        Entry.isDirectory = (s.provider.findDirectory (sc.candidatePath path)).toList := by
      rw [hd]
      exact (Namespace.entryAt?_filter _).trans (by simp [Namespace.entryAt?]; rfl)
    refine ⟨_, [], yields_candidate sc path, yields_visit_of_none hdir, List.nil_sublist _, ?_⟩
    rw [hfound]
    cases s.provider.findDirectory (sc.candidatePath path) <;> simp [hdir]

/-- **With a separator at the end of its pattern a job finds some of the directories**, and all of them
exactly if none is lost behind it. The induction is on the turns of the job without the separator. -/
theorem Namespace.IsTree.findsKeptIff_slashed (hs : s.IsTree)
    (hdot : sc.flags.has .dotMatch = false) (hd : sc.directoriesOnly = false) {t u : Job Entry}
    (htu : Job.Slashed s sc t u) (hacc : Acc (fun u t => u ∈ t.next s.provider) t) :
    FindsKeptIff s.provider Entry.isDirectory [t] [u] (u.KeepsDirectories s.provider) := by
  induction hacc generalizing u with
  | intro t _ ih =>
    -- the jobs that follow are compared first
    have hstep : u.handsOut s.provider = (t.handsOut s.provider).filter Entry.isDirectory →
        ¬u.LosesDirectory s.provider →
        List.Forall₂ (Job.Slashed s sc) (t.next s.provider) (u.next s.provider) →
        FindsKeptIff s.provider Entry.isDirectory [t] [u] (u.KeepsDirectories s.provider) := by
      intro hown hkeeps hjobs
      have hnext : FindsKeptIff s.provider Entry.isDirectory (t.next s.provider) (u.next s.provider)
          (∀ u' ∈ u.next s.provider, u'.KeepsDirectories s.provider) :=
        .of_forall₂ (fun t' ht' u' hu' => ih t' ht' hu') hjobs
      refine .of_next hown (hnext.congr ?_)
      rw [Job.keepsDirectories_iff, and_iff_right hkeeps]
    cases htu with
    | visit hb hw =>
      exact hstep rfl (by simp [Job.LosesDirectory])
        (forall₂_next_visit_slashed (forall₂_visitJobs_slashed hb hw _))
    | enumerate hb hw hwild =>
      exact hstep rfl id (hs.forall₂_next_enumerate_slashed hdot hb hw hwild)
    | nothing =>
      exact hstep rfl (by simp [Job.LosesDirectory])
        (forall₂_next_visit_slashed (.cons (.tested rfl) .nil))
    | last hpath => exact Namespace.findsKeptIff_last hd hpath
    | tested hplace =>
      exact (Namespace.findsKeptIff_tested hd hplace).congr
        (iff_of_true trivial (keepsDirectories_candidate _ _))

/-! ## The whole walk -/

/-- The walks of a pattern and of the pattern with a separator at its end begin with jobs that
correspond. -/
theorem exists_forall₂_startJobs_slashed (s : Namespace) (fs : Flags) (hw : Unslashed pattern)
    (hstar : pattern ≠ doubleStar) :
    ∃ sc : Scope, sc.flags = fs ∧ sc.directoriesOnly = false ∧
      List.Forall₂ (Job.Slashed s sc) (startJobs fs pattern) (startJobs fs (pattern ++ ['/'])) := by
  have hend : endsIn '/' (pattern ++ ['/']) = true := endsIn_iff.2 ⟨pattern, rfl⟩
  have hanchored := isAnchored_append_slash hw.ne_nil
  cases ha : isAnchored pattern with
  | false =>
    -- both walks visit the current directory
    refine ⟨⟨fs, false, true⟩, rfl, rfl, ?_⟩
    rw [startJobs_of_relative hw.ne_nil hstar ha,
      startJobs_of_relative (by simp) (ne_doubleStar_of_mem (by simp)) (hanchored.trans ha), hw.slash,
      hend]
    exact .cons (.visit (.of_not_mem (by decide)) hw) .nil
  | true =>
    refine ⟨⟨fs, false, false⟩, rfl, rfl, ?_⟩
    cases begins fs pattern with
    | literal hplain =>
      have hpath : Scope.EndsInName ⟨fs, false, false⟩ pattern := by
        refine ⟨.of_not_mem hw.backslash, ?_, hw.slash⟩
        rw [Scope.queryPath_eq, Flags.plainText_of_not_mem hw.backslash]
        exact hw.ne_nil
      rw [startJobs_anchored_literal hw.ne_nil ha hplain, startJobs_anchored_literal (by simp)
        (hanchored.trans ha) ((isWild_append_slash hw.backslash).trans hplain), hw.slash, hend]
      exact .cons (.tested (hpath.locate_candidatePath s)) .nil
    | @lead t u c ht hc hplain hu hfirst =>
      have hnext := (Cuts.lead ht hc hplain hu hfirst).next_eq
      have hrest : Unslashed u := hw.rest (by rw [hnext])
      have hbase : fs.Whole (t ++ [c]) := .of_not_mem fun hmem =>
        hw.backslash (List.append_cons t c u ▸ List.mem_append_left u hmem)
      have hslash := hw.slash
      rw [List.append_assoc, List.cons_append] at hanchored hend ⊢
      rw [startJobs_anchored_lead ha ht hc hplain hu hfirst, hslash,
        startJobs_anchored_lead (hanchored.trans ha) ht hc hplain
          ((isWild_append_slash hrest.backslash).trans hu)
          (by rwa [beforeWildcard_append_slash hrest.backslash hu]), hend]
      exact .cons (.visit hbase hrest) .nil
    | wild _ hfirst =>
      rw [not_isAnchored_of_wild_front hw.colon hfirst] at ha
      cases ha

/-- **A separator at the end of a pattern asks for directories.** If hidden names are not matched by
wildcards, a pattern finds with a separator at its end some of the directories that it finds without it,
and all of them exactly if none is lost. None is lost if the pattern does not begin with `**//`. -/
theorem Namespace.Reachable.yields_append_slash (hs : s.Reachable) (hdot : fs.has .dotMatch = false)
    (hw : Unslashed pattern) (hstar : pattern ≠ doubleStar) :
    ∃ found directories, Yields s.provider (startJobs fs pattern) found ∧
      Yields s.provider (startJobs fs (pattern ++ ['/'])) directories ∧
      directories.Sublist (found.filter Entry.isDirectory) ∧
      (directories = found.filter Entry.isDirectory ↔
        ∀ t ∈ startJobs fs (pattern ++ ['/']), t.KeepsDirectories s.provider) ∧
      (¬doubleStar ++ ['/', '/'] <+: pattern → directories = found.filter Entry.isDirectory) := by
  obtain ⟨sc, rfl, hd, hjobs⟩ := exists_forall₂_startJobs_slashed s fs hw hstar
  have hends := hs.ends_startJobs sc.flags pattern
  obtain ⟨found, directories, hfound, hdirectories, hsub, hall⟩ :=
    FindsKeptIff.of_forall₂ (fun t ht u htu =>
      hs.isTree.1.findsKeptIff_slashed hdot hd htu (hends.acc t ht)) hjobs
  refine ⟨found, directories, hfound, hdirectories, hsub, hall, fun hleap => ?_⟩
  obtain ⟨found', hfound', hdirectories'⟩ := hs.yields_append_slash_of_not_leap hdot hw hstar hleap
  rw [hfound.unique hfound']
  exact hdirectories.unique hdirectories'

/-- In the small namespace `../*` finds the directory `/d` and the file `/x`, and with a separator at
its end the directory alone. -/
theorem Namespace.small_yields_append_slash :
    Unslashed "../*".toList ∧
      Yields Namespace.small.provider (startJobs Flags.standard "../*".toList)
        [⟨"/d".toList, true⟩, ⟨"/x".toList, false⟩] ∧
      Yields Namespace.small.provider (startJobs Flags.standard ("../*".toList ++ ['/']))
        [⟨"/d".toList, true⟩] := by
  have hw : Unslashed "../*".toList := ⟨by decide, by decide, by decide, by decide⟩
  have hfound : Yields Namespace.small.provider (startJobs Flags.standard "../*".toList)
      [⟨"/d".toList, true⟩, ⟨"/x".toList, false⟩] :=
    ⟨20, List.isEmpty_iff.1 (by decide +kernel), by decide +kernel⟩
  have hdot : Flags.standard.has .dotMatch = false := by decide
  obtain ⟨found, directories, hfound', hdirectories, -, -, hall⟩ :=
    Namespace.reachable_small.yields_append_slash hdot hw (by decide)
  obtain rfl := hfound'.unique hfound
  obtain rfl := hall (by decide)
  exact ⟨hw, hfound, hdirectories⟩

/-! ## Where the law fails -/

/-- A namespace with `/x/yf` and, below its current directory, `/d/x/yf`: the first one is a directory,
the second one a file. -/
def Namespace.twofold : Namespace :=
  ⟨[⟨[['d']], .directory⟩, ⟨[['x'], ['d']], .directory⟩, ⟨[['y', 'f'], ['x'], ['d']], .file⟩,
    ⟨[['x']], .directory⟩, ⟨[['y', 'f'], ['x']], .directory⟩], [['d']]⟩

/-- It comes about by adding the two paths. -/
theorem Namespace.reachable_twofold : Namespace.twofold.Reachable := by
  have hfile : (Namespace.create "/d".toList).addFile "x/yf".toList =
      .ok ⟨Namespace.twofold.nodes.take 3, [['d']]⟩ := rfl
  have hdir : Namespace.addDirectory ⟨Namespace.twofold.nodes.take 3, [['d']]⟩ "/x/yf".toList =
      .ok Namespace.twofold := rfl
  exact ((Namespace.Reachable.create "/d".toList).addFile hfile).addDirectory hdir

/-- **The law fails for `**//x/y*`**: with a separator at its end it misses the directory `/x/yf`, since
`.//x/yf` is looked up below the current directory before `/x/yf` is tested. -/
theorem Namespace.twofold_append_slash_misses :
    Namespace.twofold.Reachable ∧
      Yields Namespace.twofold.provider (startJobs Flags.standard "**//x/y*".toList)
        [⟨"/x/yf".toList, true⟩] ∧
      Yields Namespace.twofold.provider (startJobs Flags.standard ("**//x/y*".toList ++ ['/'])) [] :=
  ⟨Namespace.reachable_twofold, ⟨40, List.isEmpty_iff.1 (by decide +kernel), by decide +kernel⟩,
    ⟨40, List.isEmpty_iff.1 (by decide +kernel), by decide +kernel⟩⟩

end PathGlob
