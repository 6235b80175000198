import PathGlob.Proofs.Walk.Outcome
import PathGlob.Search

/-! # Walks under other flags
The flags of a walk decide which names its segments match, which names are tried beyond the listed ones,
and how paths are escaped. Where a change of the flags leaves the escapes alone, all jobs but the listings
go on as before.

* **`Job.underFlags`** — a job whose flags are changed.
* **`Job.events_underFlags`** — the same happens in its turn; **`Job.next_underFlags`** says that the
  same follows, unless it is a listing.
* **`searchJobs_underFlags`** — a search begins with the same jobs. -/

namespace PathGlob

variable {ε : Type} {p : Provider ε} {g : Flags → Flags}

/-! ## Scopes -/

/-- The scope with changed flags. -/
def Scope.underFlags (g : Flags → Flags) (s : Scope) : Scope := { s with flags := g s.flags }

section

variable (hg : ∀ fs, (g fs).escapes = fs.escapes) (s : Scope)

include hg

/-- The next part of a pattern is the same. -/
theorem Scope.next_underFlags (pattern : Text) :
    Part.next (s.underFlags g).flags.escapes pattern = Part.next s.flags.escapes pattern :=
  congrArg (Part.next · pattern) (hg s.flags)

/-- The provider is asked for the same path. -/
theorem Scope.queryPath_underFlags (path : Text) : (s.underFlags g).queryPath path = s.queryPath path := by
  simp only [Scope.queryPath, Scope.underFlags, hg]

/-- A listed name is written in the same way. -/
theorem Scope.nameText_underFlags (name : Text) : (s.underFlags g).nameText name = s.nameText name := by
  simp only [Scope.nameText, Scope.underFlags, hg]

/-- The same path is tested. -/
theorem Scope.candidatePath_underFlags (path : Text) :
    (s.underFlags g).candidatePath path = s.candidatePath path := by
  unfold Scope.candidatePath
  rw [Scope.queryPath_underFlags hg]
  rfl

end

/-! ## Jobs -/

/-- **The job with changed flags.** -/
def Job.underFlags (g : Flags → Flags) : Job ε → Job ε
  | .visit s base pattern again => .visit (s.underFlags g) base pattern again
  | .enumerate s base pattern => .enumerate (s.underFlags g) base pattern
  | .candidate s path => .candidate (s.underFlags g) path
  | .tryFile path => .tryFile path
  | .deliver e => .deliver e
  | .report n => .report n

/-- Going on behind a part does the same. -/
theorem continueAt_underFlags (g : Flags → Flags) (s : Scope) (path : Text) (rest? : Option Text) :
    (continueAt (s.underFlags g) path rest? : Job ε) = (continueAt s path rest?).underFlags g := by
  cases rest? <;> rfl

section

variable (hg : ∀ fs, (g fs).escapes = fs.escapes)

include hg

/-- In a directory there are the same jobs. -/
theorem visitJobs_underFlags (s : Scope) (base pattern : Text) (again : Bool) :
    (visitJobs (s.underFlags g) base pattern again : List (Job ε)) =
      (visitJobs s base pattern again).map (Job.underFlags g) := by
  unfold visitJobs
  rw [s.next_underFlags hg]
  generalize Part.next s.flags.escapes pattern = part
  simp only
  split
  · rw [List.map_append]
    split <;> rfl
  · rw [List.map_singleton, continueAt_underFlags]

/-- **The same happens in a turn.** -/
theorem Job.events_underFlags (p : Provider ε) (t : Job ε) :
    (t.underFlags g).events p = t.events p := by
  cases t with
  | visit s base pattern again =>
    rw [Job.underFlags, Job.events_visit, Job.events_visit, Scope.queryPath_underFlags hg]
  | enumerate s base pattern =>
    rw [Job.underFlags, Job.events_enumerate, Job.events_enumerate, Scope.queryPath_underFlags hg]
    simp only [Scope.underFlags, hg]
  | candidate s path =>
    rw [Job.underFlags, Job.events_candidate, Job.events_candidate, Scope.candidatePath_underFlags hg]
  | _ => rfl

/-- **The same follows from a turn**, unless names are listed in it. -/
theorem Job.next_underFlags (p : Provider ε) {t : Job ε}
    (ht : ∀ s base pattern, t ≠ .enumerate s base pattern) :
    (t.underFlags g).next p = (t.next p).map (Job.underFlags g) := by
  cases t with
  | visit s base pattern again =>
    rw [Job.underFlags, Job.next_visit, Job.next_visit, Scope.queryPath_underFlags hg]
    split
    · exact visitJobs_underFlags hg s base pattern again
    · rfl
  | enumerate s base pattern => exact absurd rfl (ht s base pattern)
  | candidate s path =>
    have hpath : (s.underFlags g).candidatePath path = s.candidatePath path :=
      s.candidatePath_underFlags hg path
    rw [Job.underFlags]
    cases hd : p.findDirectory (s.candidatePath path) with
    | some e =>
      rw [Job.next_candidate_of_some hd, Job.next_candidate_of_some (hpath.symm ▸ hd)]
      rfl
    | none =>
      rw [Job.next_candidate_of_none hd, Job.next_candidate_of_none (hpath.symm ▸ hd), hpath]
      show (if s.directoriesOnly then [] else [Job.tryFile (s.candidatePath path)]) = _
      split <;> rfl
  | tryFile path =>
    rw [Job.underFlags, Job.next_tryFile, List.map_map]
    rfl
  | deliver e => rfl
  | report n => rfl

/-! ## Walks and searches -/

/-- A walk begins with the same jobs. -/
theorem startJobs_underFlags (fs : Flags) (pattern : Text) :
    (startJobs (g fs) pattern : List (Job ε)) = (startJobs fs pattern).map (Job.underFlags g) := by
  unfold startJobs
  rw [hg]
  generalize walkedPattern pattern = q
  simp only
  split
  · rfl
  · split
    · split
      · rfl
      · split <;> rfl
    · rfl

/-- **So does a search.** -/
theorem searchJobs_underFlags (fs : Flags) (pattern : Text) :
    (searchJobs (g fs) pattern : List (Job ε)) = (searchJobs fs pattern).map (Job.underFlags g) := by
  unfold searchJobs
  rw [hg]
  split
  · rfl
  · split
    · rfl
    · rw [List.map_flatMap, funext (startJobs_underFlags hg fs)]

end

end PathGlob
