import PathGlob.Proofs.Walk.Outcome
import PathGlob.Search

/-! # Enumerations
What a pattern matches can be enumerated by functions that call each other and never rest: the
enumeration in a directory goes through the entries there and enumerates in each of them before it
looks at the next one. A walk does the same, step by step, with what is still to be done in its list
of jobs.

Nothing bounds how deep a hierarchy is, so the calls are nested up to a depth only. What lies deeper
cuts the enumeration off. What is said of enumerations is said of all that are deep enough.

* **`Trace`** — what happens in an enumeration, as far as it goes.
* **`visitTrace`**, **`listTrace`** — the enumeration in a directory; **`searchTrace`** — of a search.
* **`Replays`** — the run of a walk passes through all that happens in an enumeration, and makes no
  fewer than a number of steps if this is cut off.
* **`replays_visit`**, **`replays_searchJobs`** — walks and searches replay their enumerations.
* **`exists_runWithin_iff`**, **`exists_prefix_iff`** — what this says of their runs. -/

namespace PathGlob

variable {ε : Type} {p : Provider ε}

/-! ## Traces -/

/-- **What happens in an enumeration**, and whether it comes to its end or is cut off. -/
@[ext]
structure Trace (ε : Type) where
  /-- What happens. -/
  events : List (Event ε)
  /-- Whether the enumeration comes to its end. -/
  complete : Bool

/-- Nothing is to be done. -/
def Trace.done : Trace ε := ⟨[], true⟩

/-- The enumeration is cut off before anything happens. -/
def Trace.cut : Trace ε := ⟨[], false⟩

/-- Events behind which nothing is to be done. -/
def Trace.of (events : List (Event ε)) : Trace ε := ⟨events, true⟩

/-- One enumeration behind the other. -/
def Trace.andThen (a b : Trace ε) : Trace ε :=
  if a.complete then ⟨a.events ++ b.events, b.complete⟩ else a

/-- The enumerations of a list of things, one behind the other. -/
def Trace.each {α : Type} (xs : List α) (f : α → Trace ε) : Trace ε :=
  xs.foldr (fun x b => (f x).andThen b) .done

@[simp] theorem Trace.each_nil {α : Type} (f : α → Trace ε) : Trace.each [] f = .done := rfl

@[simp] theorem Trace.each_cons {α : Type} (x : α) (xs : List α) (f : α → Trace ε) :
    Trace.each (x :: xs) f = (f x).andThen (Trace.each xs f) := rfl

/-! ## Enumerations -/

/-- The test of a path. -/
def testTrace (p : Provider ε) (s : Scope) (path : Text) : Trace ε :=
  .of (.noted (.test (s.candidatePath path)) ::
    existenceCheck s.directoriesOnly (s.candidatePath path) p p)

section

variable (p : Provider ε) (visit : Text → Text → Bool → Trace ε) (s : Scope)

/-- The enumeration behind a part that led to `path`: with what remains of the pattern there, for
which `visit` is called, or the test of the path. -/
def behindTrace (path : Text) : Option Text → Trace ε
  | some rest => visit path rest false
  | none => testTrace p s path

/-- The enumeration for a listed name: if the segment matches it, with what remains of the pattern
behind it, and under `**` with the same pattern once more. -/
def nameTrace (base pattern name : Text) : Trace ε :=
  let part := Part.next s.flags.escapes pattern
  let path := joinPath base (s.nameText name)
  if nameMatches s.flags part.text name then
    (behindTrace p visit s path part.rest?).andThen
      (if part.text = doubleStar then visit path pattern true else .done)
  else .done

/-- The enumeration for the directory itself and its parent. -/
def specialsTrace (base pattern : Text) : Trace ε :=
  let part := Part.next s.flags.escapes pattern
  if triesSpecials s.flags part then
    .each [currentDirectory, parentDirectory] fun name =>
      if nameMatches s.flags part.text name then
        behindTrace p visit s (joinPath base name) part.rest?
      else .done
  else .done

/-- **The enumeration of a directory** that is listed for a segment with a wildcard. -/
def listTrace (base pattern : Text) : Trace ε :=
  let path := s.queryPath base
  (Trace.of [.noted (.list base (Part.next s.flags.escapes pattern).text),
    .asked (.list path everything) (p.children path)]).andThen <|
  (Trace.each ((p.children path).map p.entryName) (nameTrace p visit s base pattern)).andThen
  (specialsTrace p visit s base pattern)

end

/-- **The enumeration with a pattern in a directory**, for calls that are nested up to a depth. -/
def visitTrace (p : Provider ε) : Nat → Scope → Text → Text → Bool → Trace ε
  | 0, _, _, _, _ => .cut
  | depth + 1, s, base, pattern, again =>
    let part := Part.next s.flags.escapes pattern
    let path := s.queryPath base
    (Trace.of [.asked (.findDirectory path) (p.findDirectory path)]).andThen <|
      if (p.findDirectory path).isNone then .done
      else if part.wild then
        -- a `**` is no directory at all, or one or more
        (if part.text = doubleStar ∧ ¬again then
          visitTrace p depth s base (part.rest?.getD []) true else .done).andThen
        (listTrace p (visitTrace p depth s) s base pattern)
      else behindTrace p (visitTrace p depth s) s (joinPath base part.text) part.rest?

/-- **The enumeration with a pattern without brace groups**, from its leading segments if it names its
starting point, and from the current directory otherwise. -/
def walkTrace (p : Provider ε) (depth : Nat) (fs : Flags) (pattern : Text) : Trace ε :=
  let q := walkedPattern pattern
  let scope : Bool → Scope := fun relative => ⟨fs, endsIn '/' q, relative⟩
  if q.isEmpty then .done
  else if isAnchored q then
    let lead := (leadEnd? (marks fs.escapes q)).getD 0
    if lead = q.length then testTrace p (scope false) q
    else if lead = 0 then visitTrace p depth (scope true) currentDirectory q false
    else visitTrace p depth (scope false) (q.take lead) (q.drop lead) false
  else visitTrace p depth (scope true) currentDirectory q false

/-- **The enumeration of a search**: with the alternatives of the pattern, one behind the other. -/
def searchTrace (p : Provider ε) (depth : Nat) (fs : Flags) (pattern : Text) : Trace ε :=
  if pattern.isEmpty then .done
  else
    match expandBraces fs.escapes pattern with
    | [] => .of [.noted (.unbalanced pattern)]
    | alternatives => .each alternatives (walkTrace p depth fs)

/-! ## Replays -/

/-- **The run of a walk passes through a trace**, whatever jobs stand behind. If the trace is complete,
the walk is over then; otherwise jobs are left, and no fewer than `depth` steps have been made. -/
def Replays (p : Provider ε) (depth : Nat) (ts : List (Job ε)) (a : Trace ε) : Prop :=
  ∃ m rest, (∀ us, runWithin p m (ts ++ us) = (a.events, rest ++ us)) ∧
    (a.complete = true ↔ rest = []) ∧ (rest = [] ∨ depth ≤ m)

variable {depth : Nat} {ts us : List (Job ε)} {a b : Trace ε}

/-- Nothing is replayed by nothing. -/
theorem Replays.nil (p : Provider ε) (depth : Nat) : Replays p depth [] .done :=
  ⟨0, [], fun _ => rfl, by simp [Trace.done], .inl rfl⟩

/-- Where no calls are nested, nothing is replayed. -/
theorem Replays.cut (hts : ts ≠ []) : Replays p 0 ts .cut :=
  ⟨0, ts, fun _ => rfl, by simp [Trace.cut, hts], .inr (Nat.le_refl 0)⟩

/-- Fewer steps may be asked for. -/
theorem Replays.mono {n : Nat} (h : Replays p depth ts a) (hn : n ≤ depth) : Replays p n ts a := by
  obtain ⟨m, rest, hrun, hcomplete, hlong⟩ := h
  exact ⟨m, rest, hrun, hcomplete, hlong.imp_right (Nat.le_trans hn)⟩

/-- **Walks one behind the other** replay enumerations one behind the other. -/
theorem Replays.append (ha : Replays p depth ts a) (hb : Replays p depth us b) :
    Replays p depth (ts ++ us) (a.andThen b) := by
  obtain ⟨m, rest, hrun, hcomplete, hlong⟩ := ha
  by_cases hc : a.complete = true
  · obtain rfl := hcomplete.1 hc
    obtain ⟨m', rest', hrun', hcomplete', hlong'⟩ := hb
    have htrace : a.andThen b = ⟨a.events ++ b.events, b.complete⟩ := if_pos hc
    rw [htrace]
    refine ⟨m + m', rest', fun vs => ?_, hcomplete', hlong'.imp_right fun hle => ?_⟩
    · rw [List.append_assoc, runWithin_add, hrun, List.nil_append, hrun']
    · exact Nat.le_trans hle (Nat.le_add_left m' m)
  · -- the second enumeration is never reached, and its jobs are left
    have hrest : rest ≠ [] := fun hr => hc (hcomplete.2 hr)
    have htrace : a.andThen b = a := if_neg hc
    rw [htrace]
    refine ⟨m, rest ++ us, fun vs => ?_, ?_, .inr (hlong.resolve_left hrest)⟩
    · rw [List.append_assoc, hrun, List.append_assoc]
    · simp [hc, hrest]

/-- The walks of a list of things replay their enumerations. -/
theorem Replays.flatMap {α : Type} {xs : List α} {jobs : α → List (Job ε)} {f : α → Trace ε}
    (h : ∀ x ∈ xs, Replays p depth (jobs x) (f x)) :
    Replays p depth (xs.flatMap jobs) (.each xs f) := by
  induction xs with
  | nil => exact .nil p depth
  | cons x xs ih =>
    rw [List.flatMap_cons, Trace.each_cons]
    exact (h x List.mem_cons_self).append (ih fun y hy => h y (List.mem_cons_of_mem x hy))

/-- The walks of those things in a list that meet a condition replay their enumerations. -/
theorem Replays.filter {α : Type} {xs : List α} {c : α → Bool} {job : α → Job ε} {f : α → Trace ε}
    (h : ∀ x ∈ xs, Replays p depth [job x] (f x)) :
    Replays p depth ((xs.filter c).map job) (.each xs fun x => if c x then f x else .done) := by
  induction xs with
  | nil => exact .nil p depth
  | cons x xs ih =>
    have hxs := ih fun y hy => h y (List.mem_cons_of_mem x hy)
    rw [Trace.each_cons]
    cases hc : c x with
    | true =>
      rw [List.filter_cons_of_pos hc]
      exact (h x List.mem_cons_self).append hxs
    | false =>
      rw [List.filter_cons_of_neg (by simp [hc])]
      exact hxs

/-- Both sides may depend on a condition. -/
theorem Replays.ite {c : Prop} [Decidable c] (ha : c → Replays p depth ts a)
    (hb : ¬c → Replays p depth us b) :
    Replays p depth (if c then ts else us) (if c then a else b) := by
  split
  · exact ha ‹c›
  · exact hb ‹¬c›

/-- **A turn in front of a replay** is one more step. -/
theorem Replays.turn {t : Job ε} (h : Replays p depth (t.next p) a) :
    Replays p (depth + 1) [t] ((Trace.of (t.events p)).andThen a) := by
  obtain ⟨m, rest, hrun, hcomplete, hlong⟩ := h
  refine ⟨m + 1, rest, fun us => ?_, hcomplete, hlong.imp_right Nat.succ_le_succ⟩
  rw [List.singleton_append, runWithin_cons, hrun]
  rfl

/-- The same without counting the step, for the jobs that are known to follow. -/
theorem Replays.of_next {t : Job ε} (h : Replays p depth ts a) (ht : t.next p = ts) :
    Replays p depth [t] ((Trace.of (t.events p)).andThen a) := by
  rw [← ht] at h
  exact h.turn.mono (Nat.le_succ depth)

/-! ## Walks replay their enumerations -/

/-- An entry that is ready is handed out. -/
theorem replays_deliver (p : Provider ε) (depth : Nat) (e : ε) :
    Replays p depth [.deliver e] (.of [.found e]) :=
  (Replays.nil p depth).of_next (t := .deliver e) rfl

/-- A note is left. -/
theorem replays_report (p : Provider ε) (depth : Nat) (n : Note) :
    Replays p depth [.report n] (.of [.noted n]) :=
  (Replays.nil p depth).of_next (t := .report n) rfl

/-- The test for a file is replayed. -/
theorem replays_tryFile (p : Provider ε) (depth : Nat) (path : Text) :
    Replays p depth [.tryFile path] (.of (.asked (.findFile path) (p.findFile path) ::
      (p.findFile path).toList.map .found)) := by
  have hnext : Replays p depth ((p.findFile path).toList.map .deliver)
      (.of ((p.findFile path).toList.map .found)) := by
    cases p.findFile path with
    | none => exact .nil p depth
    | some e => exact replays_deliver p depth e
  exact hnext.of_next (Job.next_tryFile path)

/-- The test of a path is replayed. -/
theorem replays_candidate (p : Provider ε) (depth : Nat) (s : Scope) (path : Text) :
    Replays p depth [.candidate s path] (testTrace p s path) := by
  rw [testTrace, existenceCheck]
  cases hd : p.findDirectory (s.candidatePath path) with
  | some e =>
    have hturn := (replays_deliver p depth e).of_next (Job.next_candidate_of_some hd)
    rw [Job.events_candidate, hd] at hturn
    exact hturn
  | none =>
    have hnext := Job.next_candidate_of_none hd
    cases hs : s.directoriesOnly with
    | true =>
      have hturn := (Replays.nil p depth).of_next (hnext.trans (if_pos hs))
      rw [Job.events_candidate, hd] at hturn
      exact hturn
    | false =>
      have hturn := (replays_tryFile p depth (s.candidatePath path)).of_next
        (hnext.trans (if_neg (by simp [hs])))
      rw [Job.events_candidate, hd] at hturn
      exact hturn

section

variable {s : Scope} {visit : Text → Text → Bool → Trace ε}
  (hvisit : ∀ base pattern again,
    Replays p depth [.visit s base pattern again] (visit base pattern again))

include hvisit

/-- Going on behind a part is replayed if visits are. -/
theorem replays_continueAt (path : Text) (rest? : Option Text) :
    Replays p depth [continueAt s path rest?] (behindTrace p visit s path rest?) := by
  cases rest? with
  | none => exact replays_candidate p depth s path
  | some rest => exact hvisit path rest false

/-- So are the jobs for a listed name. -/
theorem replays_nameJobs (base pattern name : Text) :
    Replays p depth (nameJobs s base pattern name) (nameTrace p visit s base pattern name) := by
  unfold nameJobs nameTrace
  generalize Part.next s.flags.escapes pattern = part
  refine .ite (fun _ => ?_) fun _ => .nil p depth
  exact (replays_continueAt hvisit _ part.rest?).append
    (.ite (fun _ => hvisit _ pattern true) fun _ => .nil p depth)

/-- So are those for the directory itself and its parent. -/
theorem replays_specialJobs (base pattern : Text) :
    Replays p depth (specialJobs s base pattern) (specialsTrace p visit s base pattern) := by
  unfold specialJobs specialsTrace
  generalize Part.next s.flags.escapes pattern = part
  refine .ite (fun _ => .filter fun name _ => ?_) fun _ => .nil p depth
  exact replays_continueAt hvisit _ part.rest?

/-- So is the listing of a directory. -/
theorem replays_enumerate (base pattern : Text) :
    Replays p depth [.enumerate s base pattern] (listTrace p visit s base pattern) := by
  have hnames : Replays p depth
      (((p.children (s.queryPath base)).map p.entryName).flatMap (nameJobs s base pattern))
      (.each ((p.children (s.queryPath base)).map p.entryName) (nameTrace p visit s base pattern)) :=
    .flatMap fun name _ => replays_nameJobs hvisit base pattern name
  have hnext := hnames.append (replays_specialJobs hvisit base pattern)
  exact hnext.of_next (Job.next_enumerate s base pattern)

end

/-- **A visit replays the enumeration in the directory.** The induction is on the depth of the calls;
each of them costs a step. -/
theorem replays_visit (p : Provider ε) (depth : Nat) (s : Scope) (base pattern : Text)
    (again : Bool) :
    Replays p depth [.visit s base pattern again] (visitTrace p depth s base pattern again) := by
  induction depth generalizing base pattern again with
  | zero => exact .cut (by simp)
  | succ depth ih =>
    rw [visitTrace]
    refine Replays.turn (t := .visit s base pattern again) ?_
    rw [Job.next_visit]
    cases p.findDirectory (s.queryPath base) with
    | none => exact .nil p depth
    | some e =>
      simp only [Option.isSome_some, if_true, Option.isNone_some, Bool.false_eq_true, if_false]
      unfold visitJobs
      refine .ite (fun _ => ?_) fun _ => replays_continueAt ih _ _
      exact (Replays.ite (fun _ => ih base _ true) fun _ => .nil p depth).append
        (replays_enumerate ih base pattern)

/-- The walk of a pattern without brace groups replays its enumeration. -/
theorem replays_startJobs (p : Provider ε) (depth : Nat) (fs : Flags) (pattern : Text) :
    Replays p depth (startJobs fs pattern) (walkTrace p depth fs pattern) := by
  have hvisit := replays_visit p depth
  refine .ite (fun _ => .nil p depth) fun _ => .ite (fun _ => ?_) fun _ => hvisit _ _ _ false
  exact .ite (fun _ => replays_candidate p depth _ _) fun _ =>
    .ite (fun _ => hvisit _ _ _ false) fun _ => hvisit _ _ _ false

/-- **A search replays its enumeration.** -/
theorem replays_searchJobs (p : Provider ε) (depth : Nat) (fs : Flags) (pattern : Text) :
    Replays p depth (searchJobs fs pattern) (searchTrace p depth fs pattern) := by
  refine .ite (fun _ => .nil p depth) fun _ => ?_
  cases expandBraces fs.escapes pattern with
  | nil => exact replays_report p depth _
  | cons first more => exact .flatMap fun alternative _ => replays_startJobs p depth fs alternative

/-! ## Runs and enumerations -/

/-- What happens in a run happens first in every longer one. -/
theorem runWithin_prefix_of_le {m n : Nat} (hmn : m ≤ n) (p : Provider ε) (ts : List (Job ε)) :
    (runWithin p m ts).1 <+: (runWithin p n ts).1 := by
  obtain ⟨k, rfl⟩ := Nat.exists_eq_add_of_le hmn
  rw [runWithin_add]
  exact List.prefix_append _ _

/-- A trace is that of a run. -/
theorem Replays.exists_runWithin (h : Replays p depth ts a) :
    ∃ m rest, runWithin p m ts = (a.events, rest) ∧ (a.complete = true ↔ rest = []) ∧
      (rest = [] ∨ depth ≤ m) := by
  obtain ⟨m, rest, hrun, hcomplete, hlong⟩ := h
  have hts := hrun []
  rw [List.append_nil, List.append_nil] at hts
  exact ⟨m, rest, hts, hcomplete, hlong⟩

section

variable {traces : Nat → Trace ε}

/-- **A walk that replays enumerations of every depth ends exactly if those that are deep enough come to
their end**, and the same happens in all of them. -/
theorem exists_runWithin_iff (h : ∀ depth, Replays p depth ts (traces depth))
    (events : List (Event ε)) :
    (∃ m, runWithin p m ts = (events, [])) ↔ ∃ depth, ∀ d ≥ depth, traces d = ⟨events, true⟩ := by
  constructor
  · rintro ⟨m, hm⟩
    have hend : (runWithin p m ts).2 = [] := by rw [hm]
    refine ⟨m, fun d hd => ?_⟩
    -- the run would be over before the enumeration is cut off
    obtain ⟨k, rest, hk, hcomplete, hlong⟩ := (h d).exists_runWithin
    have hrest : rest = [] := by
      rcases hlong with hrest | hdk
      · exact hrest
      · rw [runWithin_of_le (Nat.le_trans hd hdk) hend, hm] at hk
        exact (congrArg Prod.snd hk).symm
    have hruns := runWithin_eq_of_over (n := m) (by rw [hk, hrest]) hend
    rw [hk, hm] at hruns
    exact Trace.ext (congrArg Prod.fst hruns) (hcomplete.2 hrest)
  · rintro ⟨depth, hdepth⟩
    obtain ⟨m, rest, hm, hcomplete, -⟩ := (h depth).exists_runWithin
    rw [hdepth depth (Nat.le_refl depth)] at hm hcomplete
    exact ⟨m, by rw [hm, hcomplete.1 rfl]⟩

/-- Every run of it stays within the enumerations that are deep enough. -/
theorem prefix_trace (h : ∀ depth, Replays p depth ts (traces depth)) {m d : Nat} (hd : m ≤ d) :
    (runWithin p m ts).1 <+: (traces d).events := by
  obtain ⟨k, rest, hk, hcomplete, hlong⟩ := (h d).exists_runWithin
  have hevents : (runWithin p k ts).1 = (traces d).events := by rw [hk]
  rw [← hevents]
  rcases hlong with hrest | hdk
  · -- the enumeration comes to its end
    rcases Nat.le_total m k with hmk | hkm
    · exact runWithin_prefix_of_le hmk p ts
    · have hend : (runWithin p k ts).2 = [] := by rw [hk, hrest]
      exact ⟨[], (List.append_nil _).trans (congrArg Prod.fst (runWithin_of_le hkm hend))⟩
  · exact runWithin_prefix_of_le (Nat.le_trans hd hdk) p ts

/-- **Its runs and the enumerations that are deep enough begin in the same ways.** -/
theorem exists_prefix_iff (h : ∀ depth, Replays p depth ts (traces depth))
    (events : List (Event ε)) :
    (∃ m, events <+: (runWithin p m ts).1) ↔
      ∃ depth, ∀ d ≥ depth, events <+: (traces d).events := by
  constructor
  · rintro ⟨m, hm⟩
    exact ⟨m, fun d hd => hm.trans (prefix_trace h hd)⟩
  · rintro ⟨depth, hdepth⟩
    obtain ⟨m, rest, hm, -, -⟩ := (h depth).exists_runWithin
    have hevents : (runWithin p m ts).1 = (traces depth).events := by rw [hm]
    exact ⟨m, hevents ▸ hdepth depth (Nat.le_refl depth)⟩

end

end PathGlob
