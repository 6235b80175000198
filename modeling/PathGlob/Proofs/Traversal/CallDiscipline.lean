import PathGlob.Proofs.Traversal.EscapeModes
import PathGlob.Proofs.Traversal.Endings
import PathGlob.Proofs.Walk.RelativePaths

/-! # The discipline of questions
Whatever a provider answers, even if it answers differently from one question to the next, a search
asks and hands out in a fixed manner: it lists only what it was told to be a directory, asks for a file
only where it was just told that there is no directory, and hands out nothing but the answer to its
last question.

* **`Event.Follows`** — what has to pass before an event; **`Disciplined`** says it of all events.
* **`InLine`** — the invariant of the jobs that are left; **`Job.Attends.next`** says that a turn keeps
  it, and **`InLine.disciplined`** that a run whose jobs have it is disciplined.
* **`Job.OnlyDirectories`** — the jobs of a walk that wants directories only.
* **`walksUnder`** — what happens in the walks of several patterns, walk by walk.
* **`search_is_disciplined`** — the main statement. -/

namespace PathGlob

variable {ε : Type} {p : Provider ε} {ps : List (Provider ε)} {fs : Flags} {s : Scope}
  {front events more : List (Event ε)} {t : Job ε} {ts us : List (Job ε)}

/-! ## Discipline -/

/-- **What has to pass before an event**, if `front` is all that passes before it. A listing is of all
that is in a directory that was found before; the question for a file follows directly on the one for
a directory there, which found none; an entry that is handed out has just been found. -/
def Event.Follows (front : List (Event ε)) : Event ε → Prop
  | .asked (.list path search) _ =>
    search = everything ∧ ∃ e, .asked (.findDirectory path) (some e) ∈ front
  | .asked (.findFile path) _ => front.getLast? = some (.asked (.findDirectory path) none)
  | .found e => ∃ path, front.getLast? = some (.asked (.findDirectory path) (some e)) ∨
      front.getLast? = some (.asked (.findFile path) (some e))
  | _ => True

/-- **Each event follows on what has to pass before it**, where `front` passes before all of them. -/
def Disciplined (front events : List (Event ε)) : Prop :=
  ∀ before x after, events = before ++ x :: after → x.Follows (front ++ before)

theorem Disciplined.nil : Disciplined front [] := by
  intro before x after h
  simp at h

/-- An event and those behind it. -/
theorem Disciplined.cons {x : Event ε} (hx : x.Follows front)
    (h : Disciplined (front ++ [x]) events) : Disciplined front (x :: events) := by
  intro before y after heq
  cases before with
  | nil =>
    obtain ⟨rfl, -⟩ := List.cons.inj heq
    rwa [List.append_nil]
  | cons z before =>
    obtain ⟨rfl, rfl⟩ := List.cons.inj heq
    have hy := h before y after rfl
    rwa [List.append_assoc, List.singleton_append] at hy

/-- Events and those behind them. -/
theorem Disciplined.append (h : Disciplined front events)
    (h' : Disciplined (front ++ events) more) : Disciplined front (events ++ more) := by
  induction events generalizing front with
  | nil => rwa [List.append_nil] at h'
  | cons x events ih =>
    have hx : x.Follows front := by
      have hx := h [] x events rfl
      rwa [List.append_nil] at hx
    have htail : Disciplined (front ++ [x]) events := by
      intro before y after heq
      have hy := h (x :: before) y after (by rw [heq, List.cons_append])
      rwa [List.append_assoc, List.singleton_append]
    refine Disciplined.cons hx (ih htail ?_)
    rwa [List.append_assoc, List.singleton_append]

/-! ## Jobs in line -/

/-- **A job that waits for its turn**: it is no entry and no question for a file, and if it is a
listing, the directory has been found. -/
def Job.Awaits (front : List (Event ε)) : Job ε → Prop
  | .enumerate s base _ => ∃ e, .asked (.findDirectory (s.queryPath base)) (some e) ∈ front
  | .tryFile _ => False
  | .deliver _ => False
  | _ => True

/-- **A job whose turn it is**: it may be an entry that has just been found, and a question for a file
where no directory has just been found. -/
def Job.Attends (front : List (Event ε)) : Job ε → Prop
  | .tryFile path => front.getLast? = some (.asked (.findDirectory path) none)
  | .deliver e => Event.Follows front (.found e)
  | t => t.Awaits front

/-- Jobs of which the first one has its turn and the others wait. -/
def InLine (front : List (Event ε)) : List (Job ε) → Prop
  | [] => True
  | t :: ts => t.Attends front ∧ ∀ u ∈ ts, u.Awaits front

/-- A job that waits can have its turn. -/
theorem Job.Awaits.attends (h : t.Awaits front) : t.Attends front := by
  cases t with
  | tryFile path => exact h.elim
  | deliver e => exact h.elim
  | _ => exact h

/-- A job can wait longer. -/
theorem Job.Awaits.append (h : t.Awaits front) (events : List (Event ε)) :
    t.Awaits (front ++ events) := by
  cases t with
  | enumerate s base pattern => exact h.imp fun e he => List.mem_append_left events he
  | tryFile path => exact h.elim
  | deliver e => exact h.elim
  | _ => trivial

/-- Jobs that all wait are in line. -/
theorem InLine.of_forall (h : ∀ t ∈ ts, t.Awaits front) : InLine front ts := by
  cases ts with
  | nil => trivial
  | cons t ts => exact ⟨(h t List.mem_cons_self).attends, fun u hu => h u (List.mem_cons_of_mem t hu)⟩

/-- Behind jobs in line others can wait. -/
theorem InLine.append (h : InLine front ts) (h' : ∀ u ∈ us, u.Awaits front) :
    InLine front (ts ++ us) := by
  cases ts with
  | nil => exact .of_forall h'
  | cons t ts =>
    refine ⟨h.1, fun u hu => ?_⟩
    rcases List.mem_append.1 hu with hu | hu
    · exact h.2 u hu
    · exact h' u hu

/-- Going on behind a part waits for nothing. -/
theorem awaits_continueAt (front : List (Event ε)) (s : Scope) (path : Text) (rest? : Option Text) :
    (continueAt s path rest? : Job ε).Awaits front := by
  cases rest? <;> trivial

/-- The jobs in a directory that has been found wait. -/
theorem awaits_of_mem_visitJobs {base pattern : Text} {again : Bool} {e : ε}
    (he : .asked (.findDirectory (s.queryPath base)) (some e) ∈ front)
    (ht : t ∈ visitJobs s base pattern again) : t.Awaits front := by
  rw [mem_visitJobs_iff] at ht
  split at ht
  · rcases ht with ⟨-, -, rfl⟩ | rfl
    · trivial
    · exact ⟨e, he⟩
  · subst ht
    exact awaits_continueAt front _ _ _

/-! ## Turns and runs -/

/-- **What passes in the turn of such a job is disciplined.** -/
theorem Job.Attends.disciplined (h : t.Attends front) (p : Provider ε) :
    Disciplined front (exchanges (t.events p)) := by
  cases t with
  | visit s base pattern again => exact .cons trivial .nil
  | enumerate s base pattern => exact .cons ⟨rfl, h⟩ .nil
  | candidate s path => exact .cons trivial .nil
  | tryFile path => exact .cons h .nil
  | deliver e => exact .cons h .nil
  | report n => exact .nil

/-- **The jobs that follow are in line** behind what has passed in the turn. -/
theorem Job.next_inLine (front : List (Event ε)) (p : Provider ε) (t : Job ε) :
    InLine (front ++ exchanges (t.events p)) (t.next p) := by
  have hlast : ∀ x : Event ε, (front ++ [x]).getLast? = some x := fun x => List.getLast?_concat
  cases t with
  | visit s base pattern again =>
    rw [Job.next_visit]
    cases hd : p.findDirectory (s.queryPath base) with
    | none => trivial
    | some e =>
      have hfound : .asked (.findDirectory (s.queryPath base)) (some e) ∈
          front ++ exchanges ((Job.visit s base pattern again : Job ε).events p) := by
        rw [Job.events_visit, hd]
        exact List.mem_append_right front List.mem_cons_self
      exact .of_forall fun t ht => awaits_of_mem_visitJobs hfound ht
  | enumerate s base pattern =>
    apply InLine.of_forall
    intro t ht
    rw [Job.next_enumerate, List.mem_append, List.mem_flatMap] at ht
    rcases ht with ⟨name, -, ht⟩ | ht
    · obtain ⟨-, rfl | ⟨-, rfl⟩⟩ := mem_nameJobs_iff.1 ht
      · exact awaits_continueAt _ _ _ _
      · trivial
    · obtain ⟨-, name, -, -, rfl⟩ := mem_specialJobs_iff.1 ht
      exact awaits_continueAt _ _ _ _
  | candidate s path =>
    cases hd : p.findDirectory (s.candidatePath path) with
    | some e =>
      rw [Job.next_candidate_of_some hd, Job.events_candidate, hd]
      exact ⟨⟨_, .inl (hlast _)⟩, nofun⟩
    | none =>
      rw [Job.next_candidate_of_none hd, Job.events_candidate, hd]
      cases s.directoriesOnly with
      | true => trivial
      | false => exact ⟨hlast _, nofun⟩
  | tryFile path =>
    rw [Job.next_tryFile, Job.events_tryFile]
    cases hf : p.findFile path with
    | none => trivial
    | some e => exact ⟨⟨path, .inr (hlast _)⟩, nofun⟩
  | deliver e => trivial
  | report n => trivial

/-- **A run of jobs in line is disciplined**, whatever provider each step finds. -/
theorem InLine.disciplined (h : InLine front ts) (ps : List (Provider ε)) :
    Disciplined front (exchanges (runUnder ps ts).1) := by
  induction ps generalizing front ts with
  | nil => exact .nil
  | cons p ps ih =>
    cases ts with
    | nil => exact .nil
    | cons t ts =>
      rw [runUnder_cons, exchanges_append]
      refine (h.1.disciplined p).append (ih ?_)
      exact (Job.next_inLine front p t).append fun u hu => (h.2 u hu).append _

/-- The jobs with which a search begins wait for nothing. -/
theorem awaits_of_mem_searchJobs {pattern : Text} (ht : t ∈ searchJobs fs pattern) :
    t.Awaits front := by
  rcases cases_of_mem_searchJobs ht with ⟨n, rfl⟩ | ⟨alternative, ht⟩
  · trivial
  · rcases cases_of_mem_startJobs ht with ⟨s, path, rfl⟩ | ⟨s, base, rest, rfl, -⟩ <;> trivial

/-! ## Directories only -/

/-- **The job of a walk that wants directories only.** -/
def Job.OnlyDirectories : Job ε → Prop
  | .visit s _ _ _ => s.directoriesOnly = true
  | .enumerate s _ _ => s.directoriesOnly = true
  | .candidate s _ => s.directoriesOnly = true
  | .tryFile _ => False
  | _ => True

/-- Going on behind a part wants the same. -/
theorem onlyDirectories_continueAt (h : s.directoriesOnly = true) (path : Text)
    (rest? : Option Text) : (continueAt s path rest? : Job ε).OnlyDirectories := by
  cases rest? <;> exact h

/-- A turn of such a job leads to such jobs. -/
theorem Job.OnlyDirectories.next (h : t.OnlyDirectories) (p : Provider ε) :
    ∀ u ∈ t.next p, u.OnlyDirectories := by
  intro u hu
  cases t with
  | visit s base pattern again =>
    rw [Job.next_visit] at hu
    split at hu
    · rw [mem_visitJobs_iff] at hu
      split at hu
      · rcases hu with ⟨-, -, rfl⟩ | rfl
        · exact h
        · exact h
      · subst hu
        exact onlyDirectories_continueAt h _ _
    · cases hu
  | enumerate s base pattern =>
    rw [Job.next_enumerate, List.mem_append, List.mem_flatMap] at hu
    rcases hu with ⟨name, -, hu⟩ | hu
    · obtain ⟨-, rfl | ⟨-, rfl⟩⟩ := mem_nameJobs_iff.1 hu
      · exact onlyDirectories_continueAt h _ _
      · exact h
    · obtain ⟨-, name, -, -, rfl⟩ := mem_specialJobs_iff.1 hu
      exact onlyDirectories_continueAt h _ _
  | candidate s path =>
    have hdir : s.directoriesOnly = true := h
    cases hd : p.findDirectory (s.candidatePath path) with
    | some e =>
      rw [Job.next_candidate_of_some hd] at hu
      cases List.mem_singleton.1 hu
      trivial
    | none =>
      rw [Job.next_candidate_of_none hd, if_pos hdir] at hu
      cases hu
  | tryFile path => exact h.elim
  | deliver e => cases hu
  | report n => cases hu

/-- A turn of such a job does not ask for a file. -/
theorem Job.OnlyDirectories.not_findFile_mem (h : t.OnlyDirectories) (p : Provider ε) (path : Text)
    (a : Option ε) : .asked (.findFile path) a ∉ t.events p := by
  intro ha
  cases t with
  | tryFile path' => exact h
  | deliver e => cases List.mem_singleton.1 ha
  | report n => cases List.mem_singleton.1 ha
  | visit s base pattern again => cases eq_of_asked_mem ha
  | enumerate s base pattern => cases eq_of_asked_mem ha
  | candidate s path' => cases eq_of_asked_mem ha

/-- **A run of such jobs never asks for a file.** -/
theorem not_findFile_mem_runUnder (h : ∀ t ∈ ts, t.OnlyDirectories) (ps : List (Provider ε))
    (path : Text) (a : Option ε) : .asked (.findFile path) a ∉ (runUnder ps ts).1 := by
  induction ps generalizing ts with
  | nil => simp [runUnder]
  | cons p ps ih =>
    cases ts with
    | nil => simp
    | cons t ts =>
      have ht := h t List.mem_cons_self
      rw [runUnder_cons, List.mem_append, not_or]
      refine ⟨ht.not_findFile_mem p path a, ih fun u hu => ?_⟩
      rcases List.mem_append.1 hu with hu | hu
      · exact ht.next p u hu
      · exact h u (List.mem_cons_of_mem t hu)

/-- The walk of a pattern with a slash at its end wants directories only. -/
theorem onlyDirectories_of_mem_startJobs {pattern : Text} (hend : endsIn '/' pattern = true)
    (ht : t ∈ startJobs fs pattern) : t.OnlyDirectories := by
  have hwalked : endsIn '/' (walkedPattern pattern) = true := by
    unfold walkedPattern
    split
    · rename_i hstar
      rw [hstar] at hend
      cases hend
    · exact hend
  unfold startJobs at ht
  generalize walkedPattern pattern = q at ht hwalked
  simp only at ht
  split at ht
  · cases ht
  · split at ht
    · split at ht
      · cases List.mem_singleton.1 ht
        exact hwalked
      · split at ht
        · cases List.mem_singleton.1 ht
          exact hwalked
        · cases List.mem_singleton.1 ht
          exact hwalked
    · cases List.mem_singleton.1 ht
      exact hwalked

/-! ## Walks one behind the other -/

/-- How many steps a run takes. -/
def stepsUnder : List (Provider ε) → List (Job ε) → Nat
  | [], _ => 0
  | _ :: _, [] => 0
  | p :: ps, t :: ts => stepsUnder ps (t.next p ++ ts) + 1

/-- **Jobs behind others begin where those are done**, under the providers that are left. -/
theorem runUnder_append (ps : List (Provider ε)) (ts us : List (Job ε)) :
    (runUnder ps (ts ++ us)).1 =
      (runUnder ps ts).1 ++ (runUnder (ps.drop (stepsUnder ps ts)) us).1 := by
  induction ps generalizing ts with
  | nil => simp [runUnder]
  | cons p ps ih =>
    cases ts with
    | nil => simp [stepsUnder]
    | cons t ts =>
      have hrest := ih (t.next p ++ ts)
      rw [List.append_assoc] at hrest
      rw [List.cons_append, runUnder_cons, runUnder_cons, stepsUnder, List.drop_succ_cons]
      simp only [hrest, List.append_assoc]

/-- **What happens in the walks of several patterns**, walk by walk. A walk begins when the one before
it is done. -/
def walksUnder (fs : Flags) : List (Provider ε) → List Text → List (Text × List (Event ε))
  | _, [] => []
  | ps, pattern :: patterns =>
    (pattern, (runUnder ps (startJobs fs pattern)).1) ::
      walksUnder fs (ps.drop (stepsUnder ps (startJobs fs pattern))) patterns

/-- Put together they are what happens in a run of all walks. -/
theorem flatMap_walksUnder (fs : Flags) (ps : List (Provider ε)) (patterns : List Text) :
    (walksUnder fs ps patterns).flatMap Prod.snd =
      (runUnder ps (patterns.flatMap (startJobs fs))).1 := by
  induction patterns generalizing ps with
  | nil => simp [walksUnder]
  | cons pattern patterns ih =>
    rw [walksUnder, List.flatMap_cons, List.flatMap_cons, runUnder_append, ih]

/-- Each of them is the run of a walk. -/
theorem exists_of_mem_walksUnder {patterns : List Text} {w : Text × List (Event ε)}
    (h : w ∈ walksUnder fs ps patterns) : ∃ qs, w.2 = (runUnder qs (startJobs fs w.1)).1 := by
  induction patterns generalizing ps with
  | nil => cases h
  | cons pattern patterns ih =>
    rcases List.mem_cons.1 h with rfl | h
    · exact ⟨ps, rfl⟩
    · exact ih h

/-- What passes in a search is what passes in the walks of its alternatives. -/
theorem exchanges_searchJobs (fs : Flags) (pattern : Text) (ps : List (Provider ε)) :
    exchanges (runUnder ps (searchJobs fs pattern)).1 =
      exchanges ((walksUnder fs ps (expandBraces fs.escapes pattern)).flatMap Prod.snd) := by
  rw [flatMap_walksUnder]
  unfold searchJobs
  split
  · rename_i hempty
    obtain rfl := List.isEmpty_iff.1 hempty
    simp [expandBraces_nil]
  · cases hexpand : expandBraces fs.escapes pattern with
    | nil =>
      -- only a note is left
      cases ps with
      | nil => rfl
      | cons p ps =>
        rw [runUnder_cons]
        cases ps <;> rfl
    | cons first others => rfl

/-- **A search keeps the discipline of questions**, whatever its provider answers and however the
answers change from one question to the next. What passes is what passes in the walks of the
alternatives, one behind the other, and those of alternatives with a slash at the end do not ask for
files. -/
theorem search_is_disciplined (fs : Flags) (pattern : Text) (ps : List (Provider ε)) :
    Disciplined [] (exchanges (runUnder ps (searchJobs fs pattern)).1) ∧
      exchanges (runUnder ps (searchJobs fs pattern)).1 =
        exchanges ((walksUnder fs ps (expandBraces fs.escapes pattern)).flatMap Prod.snd) ∧
      ∀ w ∈ walksUnder fs ps (expandBraces fs.escapes pattern), endsIn '/' w.1 = true →
        ∀ path a, .asked (.findFile path) a ∉ w.2 := by
  refine ⟨InLine.disciplined (.of_forall fun t ht => awaits_of_mem_searchJobs ht) ps,
    exchanges_searchJobs fs pattern ps, ?_⟩
  intro w hw hend path a
  obtain ⟨qs, hqs⟩ := exists_of_mem_walksUnder hw
  rw [hqs]
  exact not_findFile_mem_runUnder (fun t ht => onlyDirectories_of_mem_startJobs hend ht) qs path a

/-- In the small namespace the search of `{*/,x}` hands out a file. The first of its walks asks for no
file, though it comes upon one. -/
theorem Namespace.small_search_is_disciplined :
    ∃ ps : List (Provider Entry), ∃ w ∈ walksUnder Flags.standard ps
        (expandBraces Flags.standard.escapes "\x7b*/,x\x7d".toList),
      Disciplined [] (exchanges (runUnder ps (searchJobs Flags.standard "\x7b*/,x\x7d".toList)).1) ∧
        (exchanges (runUnder ps (searchJobs Flags.standard "\x7b*/,x\x7d".toList)).1).filterMap
          Event.found? = [⟨"/d/x".toList, false⟩] ∧
        endsIn '/' w.1 = true ∧ w.2.length = 4 ∧ ∀ path a, .asked (.findFile path) a ∉ w.2 := by
  have hexpand : expandBraces Flags.standard.escapes "\x7b*/,x\x7d".toList = [['*', '/'], ['x']] := by
    decide +kernel
  have hjobs : (searchJobs Flags.standard "\x7b*/,x\x7d".toList : List (Job Entry)) =
      startJobs Flags.standard ['*', '/'] ++ startJobs Flags.standard ['x'] := by
    rw [searchJobs, hexpand]
    rfl
  obtain ⟨hdisciplined, -, hwalks⟩ := search_is_disciplined Flags.standard
    "\x7b*/,x\x7d".toList (List.replicate 8 Namespace.small.provider)
  rw [hexpand] at hwalks
  rw [hjobs] at hdisciplined
  rw [hexpand, hjobs]
  exact ⟨List.replicate 8 Namespace.small.provider, (['*', '/'], _), List.mem_cons_self, hdisciplined,
    rfl, rfl, rfl, hwalks _ List.mem_cons_self rfl⟩

end PathGlob
