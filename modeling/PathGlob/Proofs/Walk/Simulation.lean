import Mathlib.Data.List.Forall2
import PathGlob.Proofs.Walk.Outcome

/-! # Walks in step
Two walks whose jobs correspond to each other, turn by turn, ask the same questions and hand out the
same entries. If one of them has further jobs in between, it hands out further entries in between.

* **`exchanges`** — what passes between a walk and its surroundings.
* **`InStep`** — a correspondence of jobs that every turn keeps.
* **`InStep.runWithin`** — every run keeps it; **`InStep.yields_iff`** says that the outcomes are the
  same.
* **`Yields.exists_of_sublist`** — the outcomes of two walks of which one has further jobs. -/

namespace PathGlob

variable {ε : Type} {p q : Provider ε} {ts us : List (Job ε)}

/-! ## Exchanges -/

/-- Whether an event is a note. -/
def Event.isNote : Event ε → Bool
  | .noted _ => true
  | _ => false

/-- **What passes between a walk and its surroundings**: the questions with their answers and the
entries that are handed out, without the notes. -/
def exchanges (events : List (Event ε)) : List (Event ε) := events.filter (!·.isNote)

@[simp] theorem exchanges_append (xs ys : List (Event ε)) :
    exchanges (xs ++ ys) = exchanges xs ++ exchanges ys := List.filter_append xs ys

/-- The entries are among them. -/
theorem filterMap_found?_exchanges (events : List (Event ε)) :
    (exchanges events).filterMap Event.found? = events.filterMap Event.found? := by
  induction events with
  | nil => rfl
  | cons x xs ih =>
    cases x with
    | asked query answer => exact ih
    | noted n => exact ih
    | found e => exact congrArg (e :: ·) ih

/-! ## Correspondences -/

/-- Lists that are put together from corresponding ones correspond. -/
theorem forall₂_flatMap {α β γ : Type} {R : β → γ → Prop} {f : α → List β} {g : α → List γ}
    {xs : List α} (h : ∀ x ∈ xs, List.Forall₂ R (f x) (g x)) :
    List.Forall₂ R (xs.flatMap f) (xs.flatMap g) := by
  induction xs with
  | nil => exact .nil
  | cons x xs ih =>
    rw [List.flatMap_cons, List.flatMap_cons]
    exact List.rel_append (h x List.mem_cons_self) (ih fun y hy => h y (List.mem_cons_of_mem x hy))

/-- **A correspondence of jobs that every turn keeps**, under the providers `p` and `q`: the same
passes in both turns, and the jobs that take the place of the two correspond one by one. -/
structure InStep (p q : Provider ε) (R : Job ε → Job ε → Prop) : Prop where
  /-- The same passes in both turns. -/
  events {t u : Job ε} : R t u → exchanges (t.events p) = exchanges (u.events q)
  /-- The jobs that follow correspond. -/
  next {t u : Job ε} : R t u → List.Forall₂ R (t.next p) (u.next q)

variable {R : Job ε → Job ε → Prop}

/-- **Runs of corresponding jobs stay in step.** -/
theorem InStep.runWithin (h : InStep p q R) (hts : List.Forall₂ R ts us) (n : Nat) :
    exchanges (PathGlob.runWithin p n ts).1 = exchanges (PathGlob.runWithin q n us).1 ∧
      List.Forall₂ R (PathGlob.runWithin p n ts).2 (PathGlob.runWithin q n us).2 := by
  induction n generalizing ts us with
  | zero => exact ⟨rfl, hts⟩
  | succ n ih =>
    cases hts with
    | nil => exact ⟨rfl, .nil⟩
    | cons htu hrest =>
      obtain ⟨hevents, hjobs⟩ := ih (List.rel_append (h.next htu) hrest)
      rw [runWithin_cons, runWithin_cons, exchanges_append, exchanges_append, h.events htu, hevents]
      exact ⟨rfl, hjobs⟩

/-- **Walks that stay in step have the same outcome.** -/
theorem InStep.yields_iff (h : InStep p q R) (hts : List.Forall₂ R ts us) (es : List ε) :
    Yields p ts es ↔ Yields q us es := by
  have hrun : ∀ n, ((PathGlob.runWithin p n ts).2 = [] ↔ (PathGlob.runWithin q n us).2 = []) ∧
      (PathGlob.runWithin p n ts).1.filterMap Event.found? =
        (PathGlob.runWithin q n us).1.filterMap Event.found? := by
    intro n
    obtain ⟨hevents, hjobs⟩ := h.runWithin hts n
    rw [← filterMap_found?_exchanges, hevents, filterMap_found?_exchanges,
      ← List.length_eq_zero_iff, hjobs.length_eq, List.length_eq_zero_iff]
    exact ⟨Iff.rfl, rfl⟩
  exact exists_congr fun n => by rw [(hrun n).1, (hrun n).2]

/-! ## Walks with changed jobs -/

/-- **A change of all jobs that no turn brings to light is not seen in a run.** -/
theorem runWithin_map {f : Job ε → Job ε} (hevents : ∀ t : Job ε, (f t).events p = t.events p)
    (hnext : ∀ t : Job ε, (f t).next p = (t.next p).map f) (n : Nat) (ts : List (Job ε)) :
    PathGlob.runWithin p n (ts.map f) =
      ((PathGlob.runWithin p n ts).1, (PathGlob.runWithin p n ts).2.map f) := by
  induction n generalizing ts with
  | zero => rfl
  | succ n ih =>
    cases ts with
    | nil => rfl
    | cons t ts =>
      rw [List.map_cons, runWithin_cons, runWithin_cons, hevents, hnext, ← List.map_append, ih]

/-! ## Walks with further jobs -/

/-- **A walk with further jobs in between hands out further entries in between.** The jobs of the
smaller walk, changed by `f`, are jobs of the larger one, and this is kept in every turn. If the larger
walk ends, so does the smaller one. -/
theorem Yields.exists_of_sublist {f : Job ε → Job ε}
    (hown : ∀ t : Job ε, (f t).handsOut p = t.handsOut p)
    (hnext : ∀ t : Job ε, ((t.next p).map f).Sublist ((f t).next p))
    (h : (ts.map f).Sublist us) {fs : List ε} (hfs : Yields p us fs) :
    ∃ es, Yields p ts es ∧ es.Sublist fs := by
  obtain ⟨n, hend, rfl⟩ := hfs
  -- on the steps of the larger walk
  induction n generalizing ts us with
  | zero =>
    obtain rfl : us = [] := hend
    obtain rfl : ts = [] := List.map_eq_nil_iff.1 (List.sublist_nil.1 h)
    exact ⟨[], Yields.nil, List.nil_sublist _⟩
  | succ n ih =>
    cases us with
    | nil =>
      obtain rfl : ts = [] := List.map_eq_nil_iff.1 (List.sublist_nil.1 h)
      exact ⟨[], Yields.nil, List.nil_sublist _⟩
    | cons u us =>
      rw [runWithin_cons] at hend ⊢
      rw [List.filterMap_append]
      rcases List.sublist_cons_iff.1 h with hskip | ⟨r, hr, hkeep⟩
      · -- the first job is a further one
        obtain ⟨es, hes, hsub⟩ := ih (hskip.trans (List.sublist_append_right _ _)) hend
        exact ⟨es, hes, hsub.trans (List.sublist_append_right _ _)⟩
      · -- the first job has its counterpart
        obtain ⟨t, ts, rfl, rfl, rfl⟩ := List.map_eq_cons_iff.1 hr
        have hrest : ((t.next p ++ ts).map f).Sublist ((f t).next p ++ us) := by
          rw [List.map_append]
          exact (hnext t).append hkeep
        obtain ⟨es, hes, hsub⟩ := ih hrest hend
        refine ⟨t.handsOut p ++ es, hes.cons, ?_⟩
        rw [← hown t]
        exact (List.Sublist.refl _).append hsub

end PathGlob
