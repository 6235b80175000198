import Mathlib.Data.List.Perm.Basic
import PathGlob.Proofs.Traversal.BuildingOrder

/-! # Walks translated to another hierarchy
A walk knows the entries of a hierarchy by their names and hands them out. Where two hierarchies with
entries of different types answer the questions of a walk alike, it hands out the entries of the one
translated to entries of the other, in the order of the listings.

* **`Job.map`** — a job with its entry translated.
* **`Job.AnsweredAlike`** — two hierarchies give corresponding answers to the question of a job.
* **`Job.AnsweredAlike.next_perm`** — the jobs that follow correspond.
* **`Yields.translated`** — so do the outcomes. -/

namespace PathGlob

variable {ε δ : Type} {p : Provider ε} {q : Provider δ} {f : ε → δ}

/-! ## Translated jobs -/

/-- **A job with its entry translated.** All other jobs know no entry. -/
def Job.map (f : ε → δ) : Job ε → Job δ
  | .visit s base pattern again => .visit s base pattern again
  | .enumerate s base pattern => .enumerate s base pattern
  | .candidate s path => .candidate s path
  | .tryFile path => .tryFile path
  | .deliver e => .deliver (f e)
  | .report n => .report n

/-- Going on behind a part has nothing to do with entries. -/
@[simp] theorem map_continueAt (f : ε → δ) (s : Scope) (path : Text) (rest? : Option Text) :
    (continueAt s path rest?).map f = continueAt s path rest? := by
  cases rest? <;> rfl

/-- Neither have the jobs in a directory, -/
@[simp] theorem map_visitJobs (f : ε → δ) (s : Scope) (base pattern : Text) (again : Bool) :
    (visitJobs s base pattern again).map (Job.map f) = visitJobs s base pattern again := by
  unfold visitJobs
  dsimp only
  split
  · split <;> rfl
  · simp

/-- those for a listed name, -/
@[simp] theorem map_nameJobs (f : ε → δ) (s : Scope) (base pattern name : Text) :
    (nameJobs s base pattern name).map (Job.map f) = nameJobs s base pattern name := by
  unfold nameJobs
  dsimp only
  split
  · rw [List.map_cons, map_continueAt]
    split <;> rfl
  · rfl

/-- and those for the directory itself and its parent. -/
@[simp] theorem map_specialJobs (f : ε → δ) (s : Scope) (base pattern : Text) :
    (specialJobs s base pattern).map (Job.map f) = specialJobs s base pattern := by
  rw [specialJobs_eq, specialJobs_eq, List.map_map]
  exact List.map_congr_left fun name _ => map_continueAt f s _ _

/-- A walk begins with the same jobs in every hierarchy. -/
@[simp] theorem map_startJobs (f : ε → δ) (fs : Flags) (pattern : Text) :
    (startJobs fs pattern).map (Job.map f) = startJobs fs pattern := by
  unfold startJobs
  dsimp only
  split
  · rfl
  split
  · split
    · rfl
    · split <;> rfl
  · rfl

/-- So does a search. -/
@[simp] theorem map_searchJobs (f : ε → δ) (fs : Flags) (pattern : Text) :
    (searchJobs fs pattern).map (Job.map f) = searchJobs fs pattern := by
  unfold searchJobs
  split
  · rfl
  split
  · rfl
  · rw [List.map_flatMap]
    exact List.flatMap_congr fun alternative _ => map_startJobs f fs alternative

/-- A translated job hands out the translated entry. -/
theorem Job.handsOut_map (p : Provider ε) (q : Provider δ) (f : ε → δ) (t : Job ε) :
    (t.map f).handsOut q = (t.handsOut p).map f := by
  cases t <;> rfl

/-! ## Corresponding answers -/

/-- **The hierarchies `p` and `q` give corresponding answers** to the question of a job: entries are
translated, and listings have the same names in any order. -/
def Job.AnsweredAlike (p : Provider ε) (q : Provider δ) (f : ε → δ) : Job ε → Prop
  | .visit s base _ _ =>
    q.findDirectory (s.queryPath base) = (p.findDirectory (s.queryPath base)).map f
  | .enumerate s base _ =>
    ((p.children (s.queryPath base)).map p.entryName).Perm
      ((q.children (s.queryPath base)).map q.entryName)
  | .candidate s path =>
    q.findDirectory (s.candidatePath path) = (p.findDirectory (s.candidatePath path)).map f
  | .tryFile path => q.findFile path = (p.findFile path).map f
  | .deliver _ => True
  | .report _ => True

/-- **Corresponding answers lead to corresponding jobs**, in another order if listings are. -/
theorem Job.AnsweredAlike.next_perm {t : Job ε} (h : t.AnsweredAlike p q f) :
    ((t.next p).map (Job.map f)).Perm ((t.map f).next q) := by
  cases t with
  | visit s base pattern again =>
    have hanswer : q.findDirectory (s.queryPath base) =
      (p.findDirectory (s.queryPath base)).map f := h
    rw [Job.map, Job.next_visit, Job.next_visit, hanswer, Option.isSome_map]
    split
    · rw [map_visitJobs]
    · exact .refl _
  | enumerate s base pattern =>
    have hanswer : ((p.children (s.queryPath base)).map p.entryName).Perm
      ((q.children (s.queryPath base)).map q.entryName) := h
    rw [Job.map, Job.next_enumerate, Job.next_enumerate, List.map_append, map_specialJobs,
      List.map_flatMap]
    simp only [map_nameJobs]
    exact (hanswer.flatMap_right _).append_right _
  | candidate s path =>
    have hanswer : q.findDirectory (s.candidatePath path) =
      (p.findDirectory (s.candidatePath path)).map f := h
    rw [Job.map]
    cases hp : p.findDirectory (s.candidatePath path) with
    | some e =>
      rw [hp] at hanswer
      rw [Job.next_candidate_of_some hp, Job.next_candidate_of_some hanswer]
      exact .refl _
    | none =>
      rw [hp] at hanswer
      rw [Job.next_candidate_of_none hp, Job.next_candidate_of_none hanswer]
      cases s.directoriesOnly <;> exact .refl _
  | tryFile path =>
    have hanswer : q.findFile path = (p.findFile path).map f := h
    rw [Job.map, Job.next_tryFile, Job.next_tryFile, hanswer]
    cases p.findFile path <;> exact .refl _
  | deliver e => exact .refl _
  | report n => exact .refl _

/-- **Where the questions of a walk are answered alike, its outcomes are translations of each other.**
What the jobs of the walk have in common is the invariant `I`, and it is kept. -/
theorem Yields.translated {I : Job ε → Prop} (halike : ∀ t, I t → t.AnsweredAlike p q f)
    (hkeep : ∀ t, I t → ∀ u ∈ t.next p, I u) {ts : List (Job ε)} (hts : ∀ t ∈ ts, I t)
    {es : List ε} (hes : Yields p ts es) :
    ∃ ds, Yields q (ts.map (Job.map f)) ds ∧ (es.map f).Perm ds := by
  obtain ⟨n, hend, rfl⟩ := hes
  induction n generalizing ts with
  | zero =>
    obtain rfl : ts = [] := hend
    exact ⟨[], Yields.nil, .refl _⟩
  | succ n ih =>
    cases ts with
    | nil => exact ⟨[], Yields.nil, .refl _⟩
    | cons t ts =>
      obtain ⟨ht, hrest⟩ := List.forall_mem_cons.1 hts
      rw [runWithin_cons] at hend ⊢
      have hnext : ∀ u ∈ t.next p ++ ts, I u := fun u hu =>
        (List.mem_append.1 hu).elim (hkeep t ht u) (hrest u)
      obtain ⟨ds, hds, hperm⟩ := ih hnext hend
      -- the same jobs in the order of the listings of the second hierarchy
      rw [List.map_append] at hds
      obtain ⟨ds', hds', hperm'⟩ := hds.of_perm ((halike t ht).next_perm.append_right _)
      refine ⟨(t.map f).handsOut q ++ ds', hds'.cons, ?_⟩
      rw [List.filterMap_append, List.map_append, Job.handsOut_map p q f]
      exact (hperm.trans hperm').append_left _

end PathGlob
