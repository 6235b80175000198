import PathGlob.Proofs.Parts
import PathGlob.Proofs.Walk.Outcome

/-! # Termination of walks
A walk ends under every provider in which no chain of directories, each found below the one before,
goes on for ever. Every step uses up a part of the pattern, except that a `**` is kept while the walk
goes down from a directory to one below it.

* **`Provider.Descends`** — one step of such a chain.
* **`ends_visit`** — the visit of a directory ends.
* **`Job.IsWhole`** — the jobs of walks; **`Job.IsWhole.next`** says that a turn leads from them to
  such jobs, and **`Job.IsWhole.ends`** that each of them ends.
* **`ends_startJobs`** — every walk ends. -/

namespace PathGlob

variable {ε : Type} {p : Provider ε}

/-! ## Walks that end -/

/-- The walk ends under the provider. -/
def Ends (p : Provider ε) (ts : List (Job ε)) : Prop := ∃ es, Yields p ts es

/-- A walk ends if each of its jobs does. -/
theorem Ends.of_forall {ts : List (Job ε)} (h : ∀ t ∈ ts, Ends p [t]) : Ends p ts := by
  induction ts with
  | nil => exact ⟨[], Yields.nil⟩
  | cons t ts ih =>
    obtain ⟨es, hes⟩ := h t (by simp)
    obtain ⟨fs, hfs⟩ := ih fun u hu => h u (by simp [hu])
    exact ⟨es ++ fs, hes.append hfs⟩

/-- A visit ends if the jobs in the directory do, where there is one. -/
theorem Ends.visit {s : Scope} {base pattern : Text} {again : Bool}
    (h : (p.findDirectory (s.queryPath base)).isSome →
      ∀ t ∈ (visitJobs s base pattern again : List (Job ε)), Ends p [t]) :
    Ends p [.visit s base pattern again] := by
  by_cases hd : (p.findDirectory (s.queryPath base)).isSome
  · obtain ⟨es, hes⟩ := Ends.of_forall (h hd)
    exact ⟨es, yields_visit hd hes⟩
  · exact ⟨[], yields_visit_of_none hd⟩

/-- A listing ends if the jobs for the names and those for the directory and its parent do. -/
theorem Ends.enumerate {s : Scope} {base pattern : Text}
    (hnames : ∀ x ∈ p.children (s.queryPath base), ∀ t ∈ nameJobs s base pattern (p.entryName x),
      Ends p [t])
    (hspecials : ∀ t ∈ (specialJobs s base pattern : List (Job ε)), Ends p [t]) :
    Ends p [.enumerate s base pattern] := by
  have h : ∀ t ∈ ((p.children (s.queryPath base)).map p.entryName).flatMap
      (nameJobs s base pattern), Ends p [t] := by
    intro t ht
    obtain ⟨name, hname, ht⟩ := List.mem_flatMap.1 ht
    obtain ⟨x, hx, rfl⟩ := List.mem_map.1 hname
    exact hnames x hx t ht
  obtain ⟨es, hes⟩ := Ends.of_forall h
  obtain ⟨fs, hfs⟩ := Ends.of_forall hspecials
  exact ⟨es ++ fs, yields_enumerate hes hfs⟩

/-- Going on behind a part ends if the visit for the rest of the pattern does. -/
theorem Ends.continueAt {s : Scope} {path : Text} {rest? : Option Text}
    (h : ∀ r, rest? = some r → Ends p [.visit s path r false]) :
    Ends p [PathGlob.continueAt s path rest?] := by
  cases rest? with
  | none => exact ⟨_, yields_candidate s path⟩
  | some r => exact h r rfl

/-! ## Chains of directories -/

/-- **A step down from a directory to one below it**: both are found, and the path of the lower one is
that of the upper one with the name of one of its children. -/
def Provider.Descends (p : Provider ε) (lower upper : Text) : Prop :=
  (p.findDirectory upper).isSome ∧ (p.findDirectory lower).isSome ∧
    ∃ x ∈ p.children upper, lower = joinPath upper (p.entryName x)

/-- A part with a wildcard is not empty. -/
theorem Part.ne_nil_of_wild {e : Bool} {pattern : Text} (h : (Part.next e pattern).wild = true) :
    pattern ≠ [] := by
  rintro rfl
  cases h

/-- What stands behind a `**` is shorter than the pattern. -/
theorem Part.length_getD_rest_lt {e : Bool} {pattern : Text}
    (h : (Part.next e pattern).wild = true) :
    ((Part.next e pattern).rest?.getD []).length < pattern.length := by
  cases hr : (Part.next e pattern).rest? with
  | none => exact List.length_pos_iff.2 (Part.ne_nil_of_wild h)
  | some r => exact Part.length_rest_lt hr

/-- **The visit of a directory ends.** The outer induction is on the length of the pattern; the inner
one, on the directory, is needed where a `**` keeps the pattern. -/
theorem ends_visit (hp : WellFounded p.Descends) (s : Scope) (pattern base : Text) (again : Bool)
    (hbase : s.flags.Whole base) : Ends p [.visit s base pattern again] := by
  induction hn : pattern.length using Nat.strong_induction_on generalizing pattern base again with
  | _ n shorter =>
    subst hn
    generalize hq : s.queryPath base = q
    induction q using hp.induction generalizing base again with
    | _ q below =>
      subst hq
      have hrest : ∀ path r, (Part.next s.flags.escapes pattern).rest? = some r →
          s.flags.Whole path → Ends p [.visit s path r false] := fun path r hr hpath =>
        shorter r.length (Part.length_rest_lt hr) r path false hpath rfl
      apply Ends.visit
      intro hdir t ht
      rw [mem_visitJobs_iff] at ht
      split at ht
      · rename_i hwild
        rcases ht with ⟨-, -, rfl⟩ | rfl
        · exact shorter _ (Part.length_getD_rest_lt hwild) _ base true hbase rfl
        apply Ends.enumerate
        · intro x hx t ht
          have hpath := hbase.joinPath (s.whole_nameText (p.entryName x))
          obtain ⟨-, rfl | ⟨-, rfl⟩⟩ := mem_nameJobs_iff.1 ht
          · exact Ends.continueAt fun r hr => hrest _ r hr hpath
          · -- the pattern is kept, but the walk goes down if there is a directory
            by_cases hlower : (p.findDirectory
                (s.queryPath (joinPath base (s.nameText (p.entryName x))))).isSome
            · have hstep : p.Descends (s.queryPath (joinPath base (s.nameText (p.entryName x))))
                  (s.queryPath base) := by
                refine ⟨hdir, hlower, x, hx, ?_⟩
                rw [Scope.queryPath_eq, hbase.plainText_joinPath, s.plainText_nameText]
                rfl
              exact below _ hstep _ true hpath rfl
            · exact Ends.visit fun h => absurd h hlower
        · intro t ht
          obtain ⟨-, name, hname, -, rfl⟩ := mem_specialJobs_iff.1 ht
          have hspecial : s.flags.Whole name :=
            Flags.Whole.of_not_mem (not_mem_of_mem_references hname).2
          exact Ends.continueAt fun r hr => hrest _ r hr (hbase.joinPath hspecial)
      · subst ht
        exact Ends.continueAt fun r hr => hrest _ r hr (hbase.joinPath (Part.whole_text hr))

/-! ## Jobs of walks -/

/-- **The path of a job ends outside an escape**, so that what is joined to it is read as it stands.
This holds of all jobs of a walk. -/
def Job.IsWhole : Job ε → Prop
  | .visit s base _ _ => s.flags.Whole base
  | .enumerate s base _ => s.flags.Whole base
  | _ => True

/-- Going on behind a part, the path has to be looked at only if something remains. -/
theorem isWhole_continueAt {s : Scope} {path : Text} {rest? : Option Text}
    (h : ∀ r, rest? = some r → s.flags.Whole path) :
    (continueAt s path rest? : Job ε).IsWhole := by
  cases rest? with
  | none => trivial
  | some r => exact h r rfl

/-- **A turn leads from such a job to such jobs**, whatever the provider answers. -/
theorem Job.IsWhole.next {t : Job ε} (h : t.IsWhole) (p : Provider ε) :
    ∀ t' ∈ t.next p, t'.IsWhole := by
  intro t' ht'
  cases t with
  | visit s base pattern again =>
    have hbase : s.flags.Whole base := h
    rw [Job.next_visit] at ht'
    split at ht'
    · rw [mem_visitJobs_iff] at ht'
      split at ht'
      · rcases ht' with ⟨-, -, rfl⟩ | rfl
        · exact hbase
        · exact hbase
      · subst ht'
        exact isWhole_continueAt fun r hr => hbase.joinPath (Part.whole_text hr)
    · cases ht'
  | enumerate s base pattern =>
    have hbase : s.flags.Whole base := h
    rw [Job.next_enumerate, List.mem_append, List.mem_flatMap] at ht'
    rcases ht' with ⟨name, -, ht'⟩ | ht'
    · have hpath := hbase.joinPath (s.whole_nameText name)
      obtain ⟨-, rfl | ⟨-, rfl⟩⟩ := mem_nameJobs_iff.1 ht'
      · exact isWhole_continueAt fun _ _ => hpath
      · exact hpath
    · obtain ⟨-, name, hname, -, rfl⟩ := mem_specialJobs_iff.1 ht'
      have hspecial : s.flags.Whole name :=
        Flags.Whole.of_not_mem (not_mem_of_mem_references hname).2
      exact isWhole_continueAt fun _ _ => hbase.joinPath hspecial
  | candidate s path =>
    rcases Job.next_candidate_cases p s path with ⟨e, hn⟩ | hn | hn <;> rw [hn] at ht'
    · obtain rfl := List.mem_singleton.1 ht'
      trivial
    · cases ht'
    · obtain rfl := List.mem_singleton.1 ht'
      trivial
  | tryFile path =>
    rw [Job.next_tryFile, List.mem_map] at ht'
    obtain ⟨e, -, rfl⟩ := ht'
    trivial
  | deliver e => cases ht'
  | report n => cases ht'

/-- A turn of the first job of a walk leaves such jobs. -/
theorem isWhole_turn {t : Job ε} {ts : List (Job ε)} (hts : ∀ u ∈ t :: ts, u.IsWhole)
    (p : Provider ε) : ∀ u ∈ t.next p ++ ts, u.IsWhole := by
  intro u hu
  rcases List.mem_append.1 hu with hu | hu
  · exact (hts t List.mem_cons_self).next p u hu
  · exact hts u (List.mem_cons_of_mem t hu)

/-- A job ends if the jobs that take its place do. -/
theorem Ends.of_next {t : Job ε} (h : ∀ t' ∈ t.next p, Ends p [t']) : Ends p [t] := by
  obtain ⟨es, hes⟩ := Ends.of_forall h
  exact ⟨_, hes.single⟩

/-- **Such a job ends** under a provider in which no chain of directories goes down for ever. -/
theorem Job.IsWhole.ends (hp : WellFounded p.Descends) {t : Job ε} (h : t.IsWhole) :
    Ends p [t] := by
  have hvisit : ∀ {s : Scope} {base pattern : Text} {again : Bool},
      (Job.visit s base pattern again : Job ε).IsWhole → Ends p [.visit s base pattern again] :=
    fun hbase => ends_visit hp _ _ _ _ hbase
  cases t with
  | visit s base pattern again => exact hvisit h
  | enumerate s base pattern =>
    have hnext := h.next p
    apply Ends.of_next
    intro t' ht'
    have hwhole := hnext t' ht'
    rw [Job.next_enumerate, List.mem_append, List.mem_flatMap] at ht'
    -- the next jobs are visits, or tests where nothing of the pattern remains
    rcases ht' with ⟨name, -, ht'⟩ | ht'
    · obtain ⟨-, rfl | ⟨-, rfl⟩⟩ := mem_nameJobs_iff.1 ht'
      · exact Ends.continueAt fun r hr => hvisit (by rwa [hr] at hwhole)
      · exact hvisit hwhole
    · obtain ⟨-, name, -, -, rfl⟩ := mem_specialJobs_iff.1 ht'
      exact Ends.continueAt fun r hr => hvisit (by rwa [hr] at hwhole)
  | candidate s path => exact ⟨_, yields_candidate s path⟩
  | tryFile path => exact ⟨_, yields_tryFile path⟩
  | deliver e => exact ⟨_, yields_deliver e⟩
  | report n => exact ⟨[], Yields.of_next (t := .report n) rfl Yields.nil⟩

/-- A walk begins with the test of a path or with a visit. -/
theorem cases_of_mem_startJobs {fs : Flags} {pattern : Text} {t : Job ε}
    (ht : t ∈ startJobs fs pattern) :
    (∃ s path, t = .candidate s path) ∨
      ∃ (s : Scope) (base rest : Text), t = .visit s base rest false ∧ s.flags.Whole base := by
  have hdot : fs.Whole currentDirectory := Flags.Whole.of_not_mem (by decide)
  unfold startJobs at ht
  generalize walkedPattern pattern = q at ht
  simp only at ht
  split at ht
  · cases ht
  · split at ht
    · split at ht
      · exact .inl ⟨_, _, List.mem_singleton.1 ht⟩
      · rename_i hlen
        split at ht
        · exact .inr ⟨_, _, _, List.mem_singleton.1 ht, hdot⟩
        · rename_i hpos
          refine .inr ⟨_, _, _, List.mem_singleton.1 ht, ?_⟩
          -- the leading segments end with a separator
          cases hlead : leadEnd? (marks fs.escapes q) with
          | none => exact absurd (by rw [hlead]; rfl) hpos
          | some n =>
            rw [hlead, Option.getD_some] at hlen
            exact Flags.whole_take_leadEnd? hlead hlen
    · exact .inr ⟨_, _, _, List.mem_singleton.1 ht, hdot⟩

/-- The jobs with which a walk begins are such jobs. -/
theorem isWhole_startJobs (fs : Flags) (pattern : Text) :
    ∀ t ∈ (startJobs fs pattern : List (Job ε)), t.IsWhole := by
  intro t ht
  rcases cases_of_mem_startJobs ht with ⟨s, path, rfl⟩ | ⟨s, base, rest, rfl, hbase⟩
  · trivial
  · exact hbase

/-- **Every walk ends** under a provider in which no chain of directories goes down for ever. -/
theorem ends_startJobs (hp : WellFounded p.Descends) (fs : Flags) (pattern : Text) :
    Ends p (startJobs fs pattern) :=
  Ends.of_forall fun t ht => (isWhole_startJobs fs pattern t ht).ends hp

end PathGlob
