import Mathlib.Data.List.Basic
import Mathlib.Data.List.Flatten
import PathGlob.Proofs.Walk.Pulls
import PathGlob.Proofs.Walk.Termination

/-! # Walks in larger hierarchies
A walk finds in a larger hierarchy what it finds in a smaller one, in the same order. This holds for
a hierarchy that becomes larger while the walk is on, too: at every time, what the jobs that are left
would find in the smaller hierarchy stands behind what has been handed out.

* **`Provider.Extends`** — one hierarchy has all that another one has.
* **`Provider.Extends.turn`** — a turn in the larger hierarchy loses nothing.
* **`Provider.Extends.pull`** — neither does a pull.
* **`Provider.Extends.sublist`** — the outcome in the larger hierarchy has the one in the smaller
  hierarchy as a sublist. -/

namespace PathGlob

variable {ε : Type} {p q : Provider ε}

/-- **The hierarchy of `q` has all that the one of `p` has**: what is found at a path is found there
as it was, and what is listed is listed in the same order, with further entries in between. -/
structure Provider.Extends (q p : Provider ε) : Prop where
  /-- Entries keep their names. -/
  entryName : q.entryName = p.entryName
  /-- A directory stays what it is. -/
  findDirectory {path : Text} {e : ε} :
    p.findDirectory path = some e → q.findDirectory path = some e
  /-- A file stays what it is. -/
  findFile {path : Text} {e : ε} : p.findFile path = some e → q.findFile path = some e
  /-- A file does not become a directory. -/
  findDirectory_eq_none {path : Text} {e : ε} :
    p.findFile path = some e → p.findDirectory path = none → q.findDirectory path = none
  /-- Listings become longer. -/
  children (path : Text) : (p.children path).Sublist (q.children path)

/-! ## Turns -/

/-- A walk that has further jobs in between has further entries in between in its outcome. -/
theorem Yields.exists_sublist {ts us : List (Job ε)} (h : ts.Sublist us)
    (hends : ∀ u ∈ us, Ends p [u]) {es : List ε} (hes : Yields p ts es) :
    ∃ fs, Yields p us fs ∧ es.Sublist fs := by
  induction h generalizing es with
  | slnil => exact ⟨es, hes, List.Sublist.refl es⟩
  | @cons ts us u _ ih =>
    obtain ⟨e₁, he₁⟩ := hends u List.mem_cons_self
    obtain ⟨fs, hfs, hsub⟩ := ih (fun v hv => hends v (List.mem_cons_of_mem u hv)) hes
    exact ⟨e₁ ++ fs, he₁.append hfs, hsub.trans (List.sublist_append_right e₁ fs)⟩
  | @cons_cons ts us u _ ih =>
    obtain ⟨e₁, e₂, he₁, he₂, rfl⟩ := Yields.split (show Yields p ([u] ++ ts) es from hes)
    obtain ⟨fs, hfs, hsub⟩ := ih (fun v hv => hends v (List.mem_cons_of_mem u hv)) he₂
    exact ⟨e₁ ++ fs, he₁.append hfs, (List.Sublist.refl e₁).append hsub⟩

/-- **What follows from a job in the larger hierarchy** are the jobs that follow in the smaller one,
with further ones in between; or nothing is found in the smaller one anyway. -/
theorem Provider.Extends.next_cases (hq : q.Extends p) (t : Job ε) :
    (t.next p).Sublist (t.next q) ∨ Yields p (t.next p) [] := by
  cases t with
  | visit s base pattern again =>
    left
    rw [Job.next_visit, Job.next_visit]
    cases h : p.findDirectory (s.queryPath base) with
    | none => exact List.nil_sublist _
    | some e =>
      rw [hq.findDirectory h]
  | enumerate s base pattern =>
    left
    rw [Job.next_enumerate, Job.next_enumerate, hq.entryName]
    exact (((hq.children _).map _).flatMap _).append (List.Sublist.refl _)
  | candidate s path =>
    cases hd : p.findDirectory (s.candidatePath path) with
    | some e =>
      left
      rw [Job.next_candidate_of_some hd, Job.next_candidate_of_some (hq.findDirectory hd)]
    | none =>
      cases hf : p.findFile (s.candidatePath path) with
      | some e =>
        left
        rw [Job.next_candidate_of_none hd,
          Job.next_candidate_of_none (hq.findDirectory_eq_none hf hd)]
      | none =>
        -- there may be a directory by now, but in the smaller hierarchy there is nothing
        right
        rw [Job.next_candidate_of_none hd]
        cases s.directoriesOnly with
        | true => exact Yields.nil
        | false => simpa [hf] using yields_tryFile (p := p) (s.candidatePath path)
  | tryFile path =>
    left
    rw [Job.next_tryFile, Job.next_tryFile]
    cases h : p.findFile path with
    | none => exact List.nil_sublist _
    | some e =>
      rw [hq.findFile h]
  | deliver e => exact .inl (List.nil_sublist _)
  | report n => exact .inl (List.nil_sublist _)

/-- **A turn in the larger hierarchy loses nothing.** -/
theorem Provider.Extends.next (hq : q.Extends p) (hp : WellFounded p.Descends) {t : Job ε}
    (ht : t.IsWhole) {es : List ε} (hes : Yields p (t.next p) es) :
    ∃ fs, Yields p (t.next q) fs ∧ es.Sublist fs := by
  have hends : ∀ u ∈ t.next q, Ends p [u] := fun u hu => (ht.next q u hu).ends hp
  rcases hq.next_cases t with hsub | hnil
  · exact hes.exists_sublist hsub hends
  · obtain ⟨fs, hfs⟩ := Ends.of_forall hends
    rw [hes.unique hnil]
    exact ⟨fs, hfs, List.nil_sublist fs⟩

/-- The first job of a walk has its turn in the larger hierarchy: what the walk finds in the smaller
one is what the job hands out, and something that the walk still finds afterwards. -/
theorem Provider.Extends.turn (hq : q.Extends p) (hp : WellFounded p.Descends) {t : Job ε}
    {ts : List (Job ε)} (ht : t.IsWhole) {es : List ε} (hes : Yields p (t :: ts) es) :
    ∃ fs, Yields p (t.next q ++ ts) fs ∧ es.Sublist (t.handsOut q ++ fs) := by
  obtain ⟨e₁, e₂, he₁, he₂, rfl⟩ := Yields.split (show Yields p ([t] ++ ts) es from hes)
  obtain ⟨own, hown⟩ := Ends.of_forall fun u hu => (ht.next p u hu).ends hp
  obtain ⟨fs, hfs, hsub⟩ := hq.next hp ht hown
  refine ⟨fs ++ e₂, hfs.append he₂, ?_⟩
  rw [he₁.unique hown.single, Job.handsOut_eq p q, List.append_assoc]
  exact (List.Sublist.refl _).append (hsub.append (List.Sublist.refl _))

/-! ## Pulls and runs -/

/-- **A pull in the larger hierarchy loses nothing** of what the walk finds in the smaller one. -/
theorem Provider.Extends.pull (hq : q.Extends p) (hp : WellFounded p.Descends) (n : Nat)
    {ts : List (Job ε)} (hts : ∀ t ∈ ts, t.IsWhole) {es : List ε} (hes : Yields p ts es) :
    ∃ fs, Yields p (PathGlob.pull q n ts).2.rest fs ∧
      es.Sublist ((PathGlob.pull q n ts).2.found?.toList ++ fs) := by
  induction n generalizing ts es with
  | zero =>
    cases ts with
    | nil => exact ⟨es, hes, List.Sublist.refl es⟩
    | cons t ts => exact ⟨es, hes, List.Sublist.refl es⟩
  | succ n ih =>
    cases ts with
    | nil => exact ⟨es, hes, List.Sublist.refl es⟩
    | cons t ts =>
      obtain ⟨fs, hfs, hsub⟩ := hq.turn hp (hts t List.mem_cons_self) hes
      rcases t.handsOut_cases q with ⟨e, rfl⟩ | hnothing
      · exact ⟨fs, hfs, hsub⟩
      · obtain ⟨gs, hgs, hsub'⟩ := ih (isWhole_turn hts q) hfs
        rw [hnothing, List.nil_append] at hsub
        rw [snd_pull_succ hnothing]
        exact ⟨gs, hgs, hsub.trans hsub'⟩

/-- **What a walk finds in the larger hierarchy has what it finds in the smaller one as a
sublist.** -/
theorem Provider.Extends.sublist (hq : q.Extends p) (hp : WellFounded p.Descends)
    {ts : List (Job ε)} (hts : ∀ t ∈ ts, t.IsWhole) {es fs : List ε} (hes : Yields p ts es)
    (hfs : Yields q ts fs) : es.Sublist fs := by
  obtain ⟨n, hend, rfl⟩ := hfs
  -- on the steps in the larger hierarchy
  induction n generalizing ts es with
  | zero =>
    obtain rfl : ts = [] := hend
    rw [hes.unique Yields.nil]
    exact List.nil_sublist _
  | succ n ih =>
    cases ts with
    | nil =>
      rw [hes.unique Yields.nil]
      exact List.nil_sublist _
    | cons t ts =>
      obtain ⟨gs, hgs, hsub⟩ := hq.turn hp (hts t List.mem_cons_self) hes
      rw [runWithin_cons] at hend ⊢
      rw [List.filterMap_append]
      exact hsub.trans ((List.Sublist.refl _).append (ih (isWhole_turn hts q) hgs hend))

end PathGlob
