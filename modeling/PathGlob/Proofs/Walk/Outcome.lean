import PathGlob.Walk.Run

/-! # Outcomes of walks
A walk that ends under a provider has an outcome: the entries that it hands out, in order. The
outcome of a list of jobs is that of the single jobs put together, so a walk can be followed job by
job instead of step by step.

* **`Yields p ts es`** — the walk `ts` ends under the provider `p`, having handed out `es`; there is
  at most one such list (`Yields.unique`).
* **`Yields.append`**, **`Yields.flatMap`** — outcomes of walks put together; **`Yields.split`** takes
  them apart.
* **`yields_candidate`**, **`yields_visit`**, **`yields_enumerate`** — the outcome of each job.
* **`Finds p t e`** — the job `t` leads to the entry `e` in finitely many turns, whether or not the
  walk ends; for a walk that ends this is membership in the outcome (`Yields.mem_iff`). -/

namespace PathGlob

variable {ε : Type} {p : Provider ε}

/-! ## Turns of single jobs -/

/-- The entries that a job hands out in its turn. -/
def Job.handsOut (p : Provider ε) (t : Job ε) : List ε :=
  ((t.action p.entryName).run p).1.filterMap Event.found?

/-- The jobs that take the place of a job. -/
def Job.next (p : Provider ε) (t : Job ε) : List (Job ε) := ((t.action p.entryName).run p).2

/-- What happens in the turn of a job. -/
def Job.events (p : Provider ε) (t : Job ε) : List (Event ε) := ((t.action p.entryName).run p).1

@[simp] theorem Job.events_visit (s : Scope) (base pattern : Text) (again : Bool) :
    (Job.visit s base pattern again : Job ε).events p =
      [.asked (.findDirectory (s.queryPath base)) (p.findDirectory (s.queryPath base))] := rfl

@[simp] theorem Job.events_enumerate (s : Scope) (base pattern : Text) :
    (Job.enumerate s base pattern : Job ε).events p =
      [.noted (.list base (Part.next s.flags.escapes pattern).text),
        .asked (.list (s.queryPath base) everything) (p.children (s.queryPath base))] := rfl

@[simp] theorem Job.events_candidate (s : Scope) (path : Text) :
    (Job.candidate s path : Job ε).events p =
      [.noted (.test (s.candidatePath path)),
        .asked (.findDirectory (s.candidatePath path)) (p.findDirectory (s.candidatePath path))] :=
  rfl

@[simp] theorem Job.events_tryFile (path : Text) :
    (Job.tryFile path : Job ε).events p = [.asked (.findFile path) (p.findFile path)] := rfl

@[simp] theorem Job.events_deliver (e : ε) : (Job.deliver e).events p = [.found e] := rfl

@[simp] theorem Job.events_report (n : Note) : (Job.report n : Job ε).events p = [.noted n] := rfl

/-- Only an entry that is ready is handed out. -/
@[simp] theorem Job.handsOut_deliver (e : ε) : (Job.deliver e).handsOut p = [e] := rfl

@[simp] theorem Job.handsOut_visit (s : Scope) (base pattern : Text) (again : Bool) :
    (Job.visit s base pattern again : Job ε).handsOut p = [] := rfl

@[simp] theorem Job.handsOut_enumerate (s : Scope) (base pattern : Text) :
    (Job.enumerate s base pattern : Job ε).handsOut p = [] := rfl

@[simp] theorem Job.handsOut_candidate (s : Scope) (path : Text) :
    (Job.candidate s path : Job ε).handsOut p = [] := rfl

@[simp] theorem Job.handsOut_tryFile (path : Text) :
    (Job.tryFile path : Job ε).handsOut p = [] := rfl

/-- What a job hands out does not hang on the provider. -/
theorem Job.handsOut_eq (p q : Provider ε) (t : Job ε) : t.handsOut p = t.handsOut q := by
  cases t <;> rfl

/-- A job hands out nothing unless it is an entry that is ready. -/
theorem Job.handsOut_cases (p : Provider ε) (t : Job ε) :
    (∃ e, t = .deliver e) ∨ t.handsOut p = [] := by
  cases t with
  | deliver e => exact .inl ⟨e, rfl⟩
  | _ => exact .inr rfl

/-- A visit goes on in a directory that exists. -/
theorem Job.next_visit (s : Scope) (base pattern : Text) (again : Bool) :
    (Job.visit s base pattern again : Job ε).next p =
      if (p.findDirectory (s.queryPath base)).isSome then visitJobs s base pattern again
      else [] := by
  cases h : p.findDirectory (s.queryPath base) <;>
    simp [Job.next, Job.action, Action.run, Provider.answer, h]

/-- A listing is followed by the jobs for its names and those for the directory itself and its
parent. -/
theorem Job.next_enumerate (s : Scope) (base pattern : Text) :
    (Job.enumerate s base pattern : Job ε).next p =
      ((p.children (s.queryPath base)).map p.entryName).flatMap (nameJobs s base pattern)
        ++ specialJobs s base pattern := by
  rw [List.flatMap_map]
  rfl

/-- The test of a path is followed by the handing out of the directory there. -/
theorem Job.next_candidate_of_some {s : Scope} {path : Text} {e : ε}
    (h : p.findDirectory (s.candidatePath path) = some e) :
    (Job.candidate s path).next p = [.deliver e] := by
  simp [Job.next, Job.action, Action.run, Provider.answer, h]

/-- Without a directory there, it is followed by the test for a file, unless only directories are
wanted. -/
theorem Job.next_candidate_of_none {s : Scope} {path : Text}
    (h : p.findDirectory (s.candidatePath path) = none) :
    (Job.candidate s path : Job ε).next p =
      if s.directoriesOnly then [] else [.tryFile (s.candidatePath path)] := by
  simp [Job.next, Job.action, Action.run, Provider.answer, h]

/-- The test for a file is followed by the handing out of the file. -/
theorem Job.next_tryFile (path : Text) :
    (Job.tryFile path : Job ε).next p = (p.findFile path).toList.map .deliver := by
  cases h : p.findFile path <;> simp [Job.next, Job.action, Action.run, Provider.answer, h]

/-- What the test of a path is followed by. -/
theorem Job.next_candidate_cases (p : Provider ε) (s : Scope) (path : Text) :
    (∃ e, (Job.candidate s path : Job ε).next p = [.deliver e]) ∨
      (Job.candidate s path : Job ε).next p = [] ∨
      (Job.candidate s path : Job ε).next p = [.tryFile (s.candidatePath path)] := by
  cases hd : p.findDirectory (s.candidatePath path) with
  | some e => exact .inl ⟨e, Job.next_candidate_of_some hd⟩
  | none =>
    rw [Job.next_candidate_of_none hd]
    cases s.directoriesOnly with
    | true => exact .inr (.inl rfl)
    | false => exact .inr (.inr rfl)

/-! ## The jobs that follow -/

/-- For a segment with a wildcard the directory is listed, and before that a `**` is taken for no
directory. -/
theorem visitJobs_wild {s : Scope} {pattern : Text}
    (hw : (Part.next s.flags.escapes pattern).wild = true) (base : Text) (again : Bool) :
    (visitJobs s base pattern again : List (Job ε)) =
      (if (Part.next s.flags.escapes pattern).text = doubleStar ∧ ¬again then
        [.visit s base ((Part.next s.flags.escapes pattern).rest?.getD []) true] else []) ++
        [.enumerate s base pattern] := if_pos hw

/-- Segments without wildcards are followed. -/
theorem visitJobs_literal {s : Scope} {pattern : Text}
    (hw : (Part.next s.flags.escapes pattern).wild = false) (base : Text) (again : Bool) :
    (visitJobs s base pattern again : List (Job ε)) =
      [continueAt s (joinPath base (Part.next s.flags.escapes pattern).text)
        (Part.next s.flags.escapes pattern).rest?] := if_neg (by simp [hw])

/-- A name that matches is followed by the rest of the pattern, and under `**` by the same pattern
once more. -/
theorem nameJobs_of_matches {s : Scope} {base pattern name : Text}
    (hm : nameMatches s.flags (Part.next s.flags.escapes pattern).text name = true) :
    (nameJobs s base pattern name : List (Job ε)) =
      continueAt s (joinPath base (s.nameText name)) (Part.next s.flags.escapes pattern).rest? ::
        if (Part.next s.flags.escapes pattern).text = doubleStar then
          [.visit s (joinPath base (s.nameText name)) pattern true] else [] := if_pos hm

/-- A name that does not match is left out. -/
theorem nameJobs_of_not_matches {s : Scope} {base pattern name : Text}
    (hm : ¬nameMatches s.flags (Part.next s.flags.escapes pattern).text name = true) :
    (nameJobs s base pattern name : List (Job ε)) = [] := if_neg hm

/-- In a directory, segments without wildcards are followed; for one with a wildcard the directory is
listed, and a `**` is taken for no directory before that. -/
theorem mem_visitJobs_iff {s : Scope} {base pattern : Text} {again : Bool} {t : Job ε} :
    t ∈ visitJobs s base pattern again ↔
      if (Part.next s.flags.escapes pattern).wild then
        ((Part.next s.flags.escapes pattern).text = doubleStar ∧ again = false ∧
          t = .visit s base ((Part.next s.flags.escapes pattern).rest?.getD []) true) ∨
        t = .enumerate s base pattern
      else t = continueAt s (joinPath base (Part.next s.flags.escapes pattern).text)
        (Part.next s.flags.escapes pattern).rest? := by
  cases hw : (Part.next s.flags.escapes pattern).wild with
  | false => simp [visitJobs_literal hw]
  | true =>
    rw [visitJobs_wild hw]
    generalize Part.next s.flags.escapes pattern = part
    by_cases h : part.text = doubleStar ∧ again = false
    · simp [h]
    · simp only [if_true, Bool.not_eq_true, if_neg h, List.nil_append, List.mem_singleton]
      constructor
      · exact .inr
      · rintro (⟨htext, hagain, -⟩ | ht)
        · exact absurd ⟨htext, hagain⟩ h
        · exact ht

/-- A listed name that matches is followed by the rest of the pattern, and under `**` by the same
pattern once more. -/
theorem mem_nameJobs_iff {s : Scope} {base pattern name : Text} {t : Job ε} :
    t ∈ nameJobs s base pattern name ↔
      nameMatches s.flags (Part.next s.flags.escapes pattern).text name = true ∧
        (t = continueAt s (joinPath base (s.nameText name))
            (Part.next s.flags.escapes pattern).rest? ∨
          (Part.next s.flags.escapes pattern).text = doubleStar ∧
            t = .visit s (joinPath base (s.nameText name)) pattern true) := by
  by_cases hm : nameMatches s.flags (Part.next s.flags.escapes pattern).text name = true
  · rw [nameJobs_of_matches hm, List.mem_cons]
    simp only [hm, true_and]
    by_cases hstar : (Part.next s.flags.escapes pattern).text = doubleStar
    · simp [hstar]
    · simp [hstar]
  · simp [nameJobs_of_not_matches hm, hm]

/-- The names for a directory itself and its parent have no separator and no backslash. -/
theorem not_mem_of_mem_references {name : Text} (h : name ∈ [currentDirectory, parentDirectory]) :
    '/' ∉ name ∧ '\\' ∉ name := by
  rcases List.mem_cons.1 h with rfl | h
  · decide
  · obtain rfl := List.mem_singleton.1 h
    decide

/-- The directory itself and its parent are followed by the rest of the pattern. -/
theorem mem_specialJobs_iff {s : Scope} {base pattern : Text} {t : Job ε} :
    t ∈ specialJobs s base pattern ↔
      triesSpecials s.flags (Part.next s.flags.escapes pattern) = true ∧
        ∃ name ∈ [currentDirectory, parentDirectory],
          nameMatches s.flags (Part.next s.flags.escapes pattern).text name = true ∧
            t = continueAt s (joinPath base name) (Part.next s.flags.escapes pattern).rest? := by
  unfold specialJobs
  generalize Part.next s.flags.escapes pattern = part
  by_cases ht : triesSpecials s.flags part = true
  · simp only [ht, if_true, List.mem_map, List.mem_filter, true_and, and_assoc, eq_comm]
  · simp [ht]

/-- Going on behind a part hands out nothing at once. -/
theorem continueAt_ne_deliver (s : Scope) (path : Text) (rest? : Option Text) (e : ε) :
    continueAt s path rest? ≠ .deliver e := by
  cases rest? <;> exact nofun

/-- **An entry that is ready was found just before**, and it is handed out before anything else is
done. -/
theorem Job.of_deliver_mem_next {t : Job ε} {e : ε} (h : .deliver e ∈ t.next p) :
    t.next p = [.deliver e] ∧ ∃ front path,
      t.events p = front ++ [.asked (.findDirectory path) (some e)] ∧
          p.findDirectory path = some e ∨
        t.events p = front ++ [.asked (.findFile path) (some e)] ∧ p.findFile path = some e := by
  cases t with
  | visit s base pattern again =>
    rw [Job.next_visit] at h
    split at h
    · rw [mem_visitJobs_iff] at h
      split at h
      · rcases h with ⟨-, -, h⟩ | h <;> cases h
      · exact absurd h.symm (continueAt_ne_deliver _ _ _ e)
    · cases h
  | enumerate s base pattern =>
    rw [Job.next_enumerate, List.mem_append, List.mem_flatMap] at h
    rcases h with ⟨name, -, h⟩ | h
    · obtain ⟨-, h | ⟨-, h⟩⟩ := mem_nameJobs_iff.1 h
      · exact absurd h.symm (continueAt_ne_deliver _ _ _ e)
      · cases h
    · obtain ⟨-, name, -, -, h⟩ := mem_specialJobs_iff.1 h
      exact absurd h.symm (continueAt_ne_deliver _ _ _ e)
  | candidate s path =>
    cases hd : p.findDirectory (s.candidatePath path) with
    | some e' =>
      rw [Job.next_candidate_of_some hd] at h ⊢
      cases List.mem_singleton.1 h
      rw [Job.events_candidate, hd]
      exact ⟨rfl, [.noted _], _, .inl ⟨rfl, hd⟩⟩
    | none =>
      rw [Job.next_candidate_of_none hd] at h
      split at h
      · cases h
      · cases List.mem_singleton.1 h
  | tryFile path =>
    rw [Job.next_tryFile] at h ⊢
    obtain ⟨e', he', h⟩ := List.mem_map.1 h
    cases h
    have hf := Option.mem_toList.1 he'
    rw [Job.events_tryFile, hf]
    exact ⟨rfl, [], path, .inr ⟨rfl, hf⟩⟩
  | deliver e' => cases h
  | report n => cases h

/-- An entry that is ready is what is found at some path. -/
theorem Job.found_of_deliver_mem_next {t : Job ε} {e : ε} (h : .deliver e ∈ t.next p) :
    (∃ path, p.findDirectory path = some e) ∨ ∃ path, p.findFile path = some e := by
  obtain ⟨-, front, path, ⟨-, hd⟩ | ⟨-, hf⟩⟩ := Job.of_deliver_mem_next h
  · exact .inl ⟨path, hd⟩
  · exact .inr ⟨path, hf⟩

/-! ## Outcomes -/

/-- **The outcome of a walk.** The walk `ts` ends under the provider `p`, and `es` are the entries
that it hands out on the way, in order. -/
def Yields (p : Provider ε) (ts : List (Job ε)) (es : List ε) : Prop :=
  ∃ n, (runWithin p n ts).2 = [] ∧ (runWithin p n ts).1.filterMap Event.found? = es

/-- A run of one more step is a turn of the first job and a run of the rest. -/
theorem runWithin_cons (p : Provider ε) (n : Nat) (t : Job ε) (ts : List (Job ε)) :
    runWithin p (n + 1) (t :: ts) =
      (t.events p ++ (runWithin p n (t.next p ++ ts)).1, (runWithin p n (t.next p ++ ts)).2) := rfl

/-- A walk without jobs has the empty outcome. -/
theorem Yields.nil : Yields p [] [] := ⟨0, rfl, rfl⟩

/-- A turn of the first job puts what it hands out in front of the outcome. -/
theorem Yields.cons {t : Job ε} {ts : List (Job ε)} {es : List ε}
    (h : Yields p (t.next p ++ ts) es) : Yields p (t :: ts) (t.handsOut p ++ es) := by
  obtain ⟨n, hend, hes⟩ := h
  refine ⟨n + 1, ?_, ?_⟩
  · rw [runWithin_cons]
    exact hend
  · rw [runWithin_cons, List.filterMap_append, hes]
    rfl

/-- A single job has what it hands out in front of the outcome of the jobs that take its place. -/
theorem Yields.single {t : Job ε} {es : List ε} (h : Yields p (t.next p) es) :
    Yields p [t] (t.handsOut p ++ es) := by
  refine Yields.cons ?_
  rwa [List.append_nil]

/-- A job that hands out nothing has the outcome of the jobs that take its place. -/
theorem Yields.of_next {t : Job ε} {es : List ε} (ht : t.handsOut p = [])
    (h : Yields p (t.next p) es) : Yields p [t] es := by
  have hs := h.single
  rwa [ht, List.nil_append] at hs

/-- Nothing happens any more in a run that is continued behind the end. -/
theorem runWithin_of_le {m n : Nat} {ts : List (Job ε)} (hmn : m ≤ n)
    (h : (runWithin p m ts).2 = []) : runWithin p n ts = runWithin p m ts := by
  obtain ⟨k, rfl⟩ := Nat.exists_eq_add_of_le hmn
  rw [runWithin_add, h, runWithin_nil, List.append_nil]
  exact Prod.ext rfl h.symm

/-- All runs to the end are the same. -/
theorem runWithin_eq_of_over {m n : Nat} {ts : List (Job ε)} (hm : (runWithin p m ts).2 = [])
    (hn : (runWithin p n ts).2 = []) : runWithin p m ts = runWithin p n ts := by
  rcases Nat.le_total m n with hmn | hnm
  · exact (runWithin_of_le hmn hm).symm
  · exact runWithin_of_le hnm hn

/-- **A walk has at most one outcome.** -/
theorem Yields.unique {ts : List (Job ε)} {es fs : List ε} (h : Yields p ts es)
    (h' : Yields p ts fs) : es = fs := by
  obtain ⟨m, hm, rfl⟩ := h
  obtain ⟨n, hn, rfl⟩ := h'
  rw [runWithin_eq_of_over hm hn]

/-- **Walks one behind the other** have their outcomes one behind the other. -/
theorem Yields.append {ts us : List (Job ε)} {es fs : List ε} (h : Yields p ts es)
    (h' : Yields p us fs) : Yields p (ts ++ us) (es ++ fs) := by
  obtain ⟨n, hend, hes⟩ := h
  -- on the steps of the first walk
  induction n generalizing ts es with
  | zero =>
    obtain rfl : ts = [] := hend
    obtain rfl : [] = es := hes
    exact h'
  | succ n ih =>
    cases ts with
    | nil =>
      obtain rfl : [] = es := by rw [← hes, runWithin_nil]; rfl
      exact h'
    | cons t ts =>
      rw [runWithin_cons] at hend hes
      rw [List.filterMap_append] at hes
      -- the jobs that take the place of the first one, then those behind, then the second walk
      have hrest : Yields p ((t.next p ++ ts) ++ us) _ := ih hend rfl
      rw [List.append_assoc] at hrest
      rw [← hes, List.append_assoc]
      exact hrest.cons

/-- The outcome of walks one behind the other is made of theirs. -/
theorem Yields.split {ts us : List (Job ε)} {es : List ε} (h : Yields p (ts ++ us) es) :
    ∃ e₁ e₂, Yields p ts e₁ ∧ Yields p us e₂ ∧ es = e₁ ++ e₂ := by
  obtain ⟨n, hend, hes⟩ := h
  -- on the steps of both walks
  induction n generalizing ts es with
  | zero =>
    obtain ⟨rfl, rfl⟩ := List.append_eq_nil_iff.1 hend
    exact ⟨[], [], Yields.nil, Yields.nil, hes.symm⟩
  | succ n ih =>
    cases ts with
    | nil => exact ⟨[], es, Yields.nil, ⟨n + 1, hend, hes⟩, rfl⟩
    | cons t ts =>
      rw [List.cons_append, runWithin_cons] at hend hes
      rw [← List.append_assoc] at hend hes
      obtain ⟨e₁, e₂, h₁, h₂, he⟩ := ih hend rfl
      refine ⟨t.handsOut p ++ e₁, e₂, h₁.cons, h₂, ?_⟩
      rw [← hes, List.filterMap_append, he, List.append_assoc]
      rfl

/-- The walks of a list of things, one behind the other. -/
theorem Yields.flatMap {α : Type} {xs : List α} {jobs : α → List (Job ε)} {found : α → List ε}
    (h : ∀ x ∈ xs, Yields p (jobs x) (found x)) :
    Yields p (xs.flatMap jobs) (xs.flatMap found) := by
  induction xs with
  | nil => exact Yields.nil
  | cons x xs ih =>
    rw [List.flatMap_cons, List.flatMap_cons]
    exact (h x (by simp)).append (ih fun y hy => h y (by simp [hy]))

/-- The walks of a list of jobs, one behind the other. -/
theorem Yields.map {α : Type} {xs : List α} {job : α → Job ε} {found : α → List ε}
    (h : ∀ x ∈ xs, Yields p [job x] (found x)) :
    Yields p (xs.map job) (xs.flatMap found) := by
  rw [List.map_eq_flatMap]
  exact Yields.flatMap h

/-! ## The outcome of each job -/

/-- An entry that is ready is the outcome. -/
theorem yields_deliver (e : ε) : Yields p [.deliver e] [e] :=
  Yields.single (t := .deliver e) Yields.nil

/-- The entry at a path: the directory there, otherwise the file there unless only directories are
wanted. -/
def Provider.entryAt? (p : Provider ε) (directoriesOnly : Bool) (path : Text) : Option ε :=
  (p.findDirectory path).or (if directoriesOnly then none else p.findFile path)

/-- **What passes in the check of a path.** It is asked for a directory at the path, and for a file
there if there is none and files are wanted; what is found is handed out. Another provider may be there
at the second question than at the first one. -/
def existenceCheck (directoriesOnly : Bool) (path : Text) (p q : Provider ε) : List (Event ε) :=
  match p.findDirectory path with
  | some e => [.asked (.findDirectory path) (some e), .found e]
  | none =>
    .asked (.findDirectory path) none ::
      if directoriesOnly then []
      else .asked (.findFile path) (q.findFile path) :: (q.findFile path).toList.map .found

/-- What the check of a path hands out. -/
theorem filterMap_found?_existenceCheck (directoriesOnly : Bool) (path : Text) (p q : Provider ε) :
    (existenceCheck directoriesOnly path p q).filterMap Event.found? =
      ((p.findDirectory path).or (if directoriesOnly then none else q.findFile path)).toList := by
  unfold existenceCheck
  cases p.findDirectory path with
  | some e => rfl
  | none =>
    cases directoriesOnly with
    | true => rfl
    | false => cases q.findFile path <;> rfl

/-- The test for a file yields the file. -/
theorem yields_tryFile (path : Text) : Yields p [.tryFile path] (p.findFile path).toList := by
  refine Yields.of_next (Job.handsOut_tryFile path) ?_
  rw [Job.next_tryFile]
  cases p.findFile path with
  | none => exact Yields.nil
  | some e => exact yields_deliver e

/-- **The test of a path** yields the entry there. -/
theorem yields_candidate (s : Scope) (path : Text) :
    Yields p [.candidate s path] (p.entryAt? s.directoriesOnly (s.candidatePath path)).toList := by
  refine Yields.of_next (Job.handsOut_candidate s path) ?_
  rw [Provider.entryAt?]
  cases h : p.findDirectory (s.candidatePath path) with
  | some e =>
    rw [Job.next_candidate_of_some h]
    exact yields_deliver e
  | none =>
    rw [Job.next_candidate_of_none h]
    cases s.directoriesOnly with
    | true => exact Yields.nil
    | false => exact yields_tryFile _

/-- **The visit of a directory** yields what the jobs there yield. -/
theorem yields_visit {s : Scope} {base pattern : Text} {again : Bool} {es : List ε}
    (hd : (p.findDirectory (s.queryPath base)).isSome)
    (h : Yields p (visitJobs s base pattern again) es) :
    Yields p [.visit s base pattern again] es := by
  refine Yields.of_next (Job.handsOut_visit s base pattern again) ?_
  rwa [Job.next_visit, if_pos hd]

/-- The visit of what is no directory yields nothing. -/
theorem yields_visit_of_none {s : Scope} {base pattern : Text} {again : Bool}
    (hd : ¬(p.findDirectory (s.queryPath base)).isSome) :
    Yields p [.visit s base pattern again] [] := by
  refine Yields.of_next (Job.handsOut_visit s base pattern again) ?_
  rw [Job.next_visit, if_neg hd]
  exact Yields.nil

/-- **The listing of a directory** yields what the jobs for the names in it and for the directory
itself and its parent yield. -/
theorem yields_enumerate {s : Scope} {base pattern : Text} {es fs : List ε}
    (hnames : Yields p
      (((p.children (s.queryPath base)).map p.entryName).flatMap (nameJobs s base pattern)) es)
    (hspecials : Yields p (specialJobs s base pattern) fs) :
    Yields p [.enumerate s base pattern] (es ++ fs) := by
  refine Yields.of_next (Job.handsOut_enumerate s base pattern) ?_
  rw [Job.next_enumerate]
  exact hnames.append hspecials

/-! ## Entries that a job leads to -/

/-- **The entries that a job leads to**, after finitely many turns. -/
inductive Finds (p : Provider ε) : Job ε → ε → Prop
  /-- The job hands out the entry itself. -/
  | own {t : Job ε} {e : ε} (h : e ∈ t.handsOut p) : Finds p t e
  /-- One of the jobs that take its place leads to the entry. -/
  | later {t t' : Job ε} {e : ε} (h : t' ∈ t.next p) (h' : Finds p t' e) : Finds p t e

/-- A job that hands out nothing leads to what the jobs in its place lead to. -/
theorem finds_iff_of_handsOut_eq_nil {t : Job ε} (h : t.handsOut p = []) (e : ε) :
    Finds p t e ↔ ∃ t' ∈ t.next p, Finds p t' e := by
  constructor
  · intro hfinds
    cases hfinds with
    | own ho => rw [h] at ho; cases ho
    | later ht he => exact ⟨_, ht, he⟩
  · rintro ⟨t', ht, he⟩
    exact .later ht he

/-- A visit leads to what the jobs in the directory lead to, if it exists. -/
theorem finds_visit_iff {s : Scope} {base pattern : Text} {again : Bool} {e : ε} :
    Finds p (.visit s base pattern again) e ↔
      (p.findDirectory (s.queryPath base)).isSome ∧
        ∃ t ∈ visitJobs s base pattern again, Finds p t e := by
  rw [finds_iff_of_handsOut_eq_nil rfl, Job.next_visit]
  split <;> simp [*]

/-- A listing leads to what the jobs for its names lead to, and those for the directory itself and
its parent. -/
theorem finds_enumerate_iff {s : Scope} {base pattern : Text} {e : ε} :
    Finds p (.enumerate s base pattern) e ↔
      (∃ x ∈ p.children (s.queryPath base), ∃ t ∈ nameJobs s base pattern (p.entryName x),
        Finds p t e) ∨ ∃ t ∈ specialJobs s base pattern, Finds p t e := by
  rw [finds_iff_of_handsOut_eq_nil rfl, Job.next_enumerate]
  simp only [List.mem_append, List.mem_flatMap, List.mem_map]
  constructor
  · rintro ⟨t, ⟨name, ⟨x, hx, rfl⟩, ht⟩ | ht, he⟩
    · exact .inl ⟨x, hx, t, ht, he⟩
    · exact .inr ⟨t, ht, he⟩
  · rintro (⟨x, hx, t, ht, he⟩ | ⟨t, ht, he⟩)
    · exact ⟨t, .inl ⟨_, ⟨x, hx, rfl⟩, ht⟩, he⟩
    · exact ⟨t, .inr ht, he⟩

/-- **For a walk that ends, the entries its jobs lead to are those of the outcome.** -/
theorem Yields.mem_iff {ts : List (Job ε)} {es : List ε} (h : Yields p ts es) (e : ε) :
    e ∈ es ↔ ∃ t ∈ ts, Finds p t e := by
  obtain ⟨n, hend, rfl⟩ := h
  -- on the steps of the walk
  induction n generalizing ts with
  | zero =>
    obtain rfl : ts = [] := hend
    simp
  | succ n ih =>
    cases ts with
    | nil => simp
    | cons t ts =>
      rw [runWithin_cons] at hend ⊢
      rw [List.filterMap_append, List.mem_append, ih hend]
      show e ∈ t.handsOut p ∨ _ ↔ _
      constructor
      · rintro (ho | ⟨t', ht', he⟩)
        · exact ⟨t, by simp, .own ho⟩
        · rcases List.mem_append.1 ht' with hn | hts
          · exact ⟨t, by simp, .later hn he⟩
          · exact ⟨t', by simp [hts], he⟩
      · rintro ⟨t', ht', he⟩
        rcases List.mem_cons.1 ht' with rfl | hts
        · -- the first job hands it out or leads there through a job that takes its place
          cases he with
          | own ho => exact .inl ho
          | later hn he => exact .inr ⟨_, List.mem_append_left _ hn, he⟩
        · exact .inr ⟨t', List.mem_append_right _ hts, he⟩

end PathGlob
