import PathGlob.Proofs.Walk.Outcome

/-! # Pulls
A walk from which entries are pulled one by one hands out its outcome in order.

* **`Yields.exists_pull`** — the next entry that is pulled is the first one of the outcome, and what
  remains has the rest as its outcome.
* **`pull_found_of_next`** — what holds of the jobs of a walk and is kept in every turn holds of the
  entry that is pulled and of the jobs that remain behind it. -/

namespace PathGlob

variable {ε : Type} {p : Provider ε}

/-! ## Results of pulls -/

/-- The entry that a pull has found. -/
def Pull.found? : Pull ε → Option ε
  | .found e _ => some e
  | _ => none

/-- The jobs that remain behind a pull. -/
def Pull.rest : Pull ε → List (Job ε)
  | .found _ rest => rest
  | .finished => []
  | .paused rest => rest

/-! ## Pulls and outcomes -/

/-- A job that hands out nothing makes place for the jobs that follow from it. -/
theorem pull_succ {t : Job ε} (h : t.handsOut p = []) (n : Nat) (ts : List (Job ε)) :
    pull p (n + 1) (t :: ts) =
      (t.events p ++ (pull p n (t.next p ++ ts)).1, (pull p n (t.next p ++ ts)).2) := by
  cases t with
  | deliver e => cases h
  | _ => rfl

/-- The same, for what comes of the pull. -/
theorem snd_pull_succ {t : Job ε} (h : t.handsOut p = []) (n : Nat) (ts : List (Job ε)) :
    (pull p (n + 1) (t :: ts)).2 = (pull p n (t.next p ++ ts)).2 := by
  rw [pull_succ h]

/-- **The next entry that is pulled is the first one of the outcome.** If there is none, the walk
comes to its end. -/
theorem Yields.exists_pull {ts : List (Job ε)} {es : List ε} (h : Yields p ts es) :
    (es = [] ∧ ∃ n, (pull p n ts).2 = .finished) ∨
      ∃ e fs rest n, es = e :: fs ∧ (pull p n ts).2 = .found e rest ∧ Yields p rest fs := by
  obtain ⟨n, hend, hes⟩ := h
  -- on the steps of the walk
  induction n generalizing ts es with
  | zero =>
    obtain rfl : ts = [] := hend
    exact .inl ⟨hes.symm, 0, rfl⟩
  | succ n ih =>
    cases ts with
    | nil =>
      rw [runWithin_nil] at hes
      exact .inl ⟨hes.symm, 0, rfl⟩
    | cons t ts =>
      rw [runWithin_cons] at hend hes
      rw [List.filterMap_append] at hes
      rcases t.handsOut_cases p with ⟨e, rfl⟩ | hnothing
      · exact .inr ⟨e, _, ts, 1, hes.symm, rfl, ⟨n, hend, rfl⟩⟩
      · have hrest : es = (runWithin p n (t.next p ++ ts)).1.filterMap Event.found? := by
          rw [← hes]
          show t.handsOut p ++ _ = _
          rw [hnothing, List.nil_append]
        rcases ih hend hrest.symm with ⟨hnil, m, hm⟩ | ⟨e, fs, rest, m, he, hm, hfs⟩
        · exact .inl ⟨hnil, m + 1, by rw [snd_pull_succ hnothing, hm]⟩
        · exact .inr ⟨e, fs, rest, m + 1, he, by rw [snd_pull_succ hnothing, hm], hfs⟩

/-- **What every turn keeps holds behind a pull**, of the entry that is handed out and of all jobs
that remain. -/
theorem pull_found_of_next {I : Job ε → Prop}
    (hnext : ∀ t, I t → ∀ t' ∈ t.next p, I t') {n : Nat} {ts rest : List (Job ε)} {e : ε}
    (hts : ∀ t ∈ ts, I t) (h : (pull p n ts).2 = .found e rest) :
    I (.deliver e) ∧ ∀ t ∈ rest, I t := by
  induction n generalizing ts with
  | zero =>
    cases ts with
    | nil => cases h
    | cons t ts => cases h
  | succ n ih =>
    cases ts with
    | nil => cases h
    | cons t ts =>
      rcases t.handsOut_cases p with ⟨e', rfl⟩ | hnothing
      · cases h
        exact ⟨hts _ List.mem_cons_self, fun t ht => hts t (List.mem_cons_of_mem _ ht)⟩
      · rw [snd_pull_succ hnothing] at h
        apply ih _ h
        intro t' ht'
        rcases List.mem_append.1 ht' with ht' | ht'
        · exact hnext t (hts t List.mem_cons_self) t' ht'
        · exact hts t' (List.mem_cons_of_mem _ ht')

/-! ## Pulls and runs -/

/-- A pull without an entry is a run. -/
theorem runWithin_of_pull {n : Nat} {ts : List (Job ε)} (h : (pull p n ts).2.found? = none) :
    runWithin p n ts = ((pull p n ts).1, (pull p n ts).2.rest) := by
  induction n generalizing ts with
  | zero => cases ts <;> rfl
  | succ n ih =>
    cases ts with
    | nil => rfl
    | cons t ts =>
      rcases t.handsOut_cases p with ⟨e, rfl⟩ | hnothing
      · cases h
      · rw [pull_succ hnothing] at h ⊢
        rw [runWithin_cons, ih h]

/-- A pull with an entry is a run that may be shorter. -/
theorem exists_runWithin_of_pull {n : Nat} {ts rest : List (Job ε)} {events : List (Event ε)} {e : ε}
    (h : pull p n ts = (events, .found e rest)) :
    ∃ m < n, runWithin p (m + 1) ts = (events, rest) := by
  induction n generalizing ts events with
  | zero => cases ts <;> cases h
  | succ n ih =>
    cases ts with
    | nil => cases h
    | cons t ts =>
      rcases t.handsOut_cases p with ⟨e', rfl⟩ | hnothing
      · cases h
        exact ⟨0, Nat.zero_lt_succ n, rfl⟩
      · rw [pull_succ hnothing] at h
        obtain ⟨rfl, hresult⟩ := Prod.mk.inj h
        obtain ⟨m, hm, hrun⟩ := ih (Prod.ext rfl hresult)
        exact ⟨m + 1, Nat.succ_lt_succ hm, by rw [runWithin_cons, hrun]⟩

/-- A pull that has to pause leaves jobs. -/
theorem ne_nil_of_paused {n : Nat} {ts rest : List (Job ε)} (h : (pull p n ts).2 = .paused rest) :
    rest ≠ [] := by
  induction n generalizing ts with
  | zero =>
    cases ts with
    | nil => cases h
    | cons t ts =>
      cases h
      simp
  | succ n ih =>
    cases ts with
    | nil => cases h
    | cons t ts =>
      rcases t.handsOut_cases p with ⟨e, rfl⟩ | hnothing
      · cases h
      · rw [pull_succ hnothing] at h
        exact ih h

/-- In a pull nothing is handed out but its entry. -/
theorem filterMap_pull (p : Provider ε) (n : Nat) (ts : List (Job ε)) :
    (pull p n ts).1.filterMap Event.found? = (pull p n ts).2.found?.toList := by
  induction n generalizing ts with
  | zero => cases ts <;> rfl
  | succ n ih =>
    cases ts with
    | nil => rfl
    | cons t ts =>
      rcases t.handsOut_cases p with ⟨e, rfl⟩ | hnothing
      · rfl
      · rw [pull_succ hnothing, List.filterMap_append, ih]
        show t.handsOut p ++ _ = _
        rw [hnothing, List.nil_append]

/-- Behind a run, what remains of a walk has the rest of the outcome. -/
theorem Yields.behind_run {ts : List (Job ε)} {es : List ε} (h : Yields p ts es) (m : Nat) :
    ∃ fs, Yields p (runWithin p m ts).2 fs ∧
      es = (runWithin p m ts).1.filterMap Event.found? ++ fs := by
  obtain ⟨n, hend, rfl⟩ := h
  rcases Nat.le_total n m with hnm | hmn
  · rw [runWithin_of_le hnm hend, hend]
    exact ⟨[], Yields.nil, (List.append_nil _).symm⟩
  · obtain ⟨k, rfl⟩ := Nat.exists_eq_add_of_le hmn
    rw [runWithin_add] at hend ⊢
    exact ⟨_, ⟨k, hend, rfl⟩, List.filterMap_append ..⟩

/-- **A pull with an entry takes the first one of the outcome**, and leaves the others. -/
theorem Yields.of_found {ts rest : List (Job ε)} {es : List ε} {e : ε} {n : Nat}
    (h : Yields p ts es) (hpull : (pull p n ts).2 = .found e rest) :
    es.head? = some e ∧ Yields p rest es.tail := by
  have hevents := filterMap_pull p n ts
  rw [hpull] at hevents
  obtain ⟨m, -, hrun⟩ := exists_runWithin_of_pull (Prod.ext rfl hpull)
  obtain ⟨fs, hfs, hes⟩ := h.behind_run (m + 1)
  rw [hrun] at hfs hes
  rw [hes, hevents]
  exact ⟨rfl, hfs⟩

/-- A pull that comes to the end leaves nothing of the outcome. -/
theorem Yields.of_finished {ts : List (Job ε)} {es : List ε} {n : Nat} (h : Yields p ts es)
    (hpull : (pull p n ts).2 = .finished) : es.head? = none ∧ Yields p [] es.tail := by
  have hevents := filterMap_pull p n ts
  rw [hpull] at hevents
  have hrun := @runWithin_of_pull ε p n ts (by rw [hpull]; rfl)
  obtain ⟨fs, hfs, hes⟩ := h.behind_run n
  rw [hrun, hpull] at hfs hes
  rw [hes, hevents, hfs.unique Yields.nil]
  exact ⟨rfl, Yields.nil⟩

end PathGlob
