import Mathlib.Data.List.Forall2
import Mathlib.Logic.Relation
import PathGlob.Proofs.Walk.Termination

/-! # Walks that leave something out
A walk that follows another one but leaves out some of its jobs finds a part of what the other one
finds. It finds all of it exactly if none of the jobs that are left out leads to an entry.

* **`Job.Leads`** — one job leads to another one, in any number of turns.
* **`FindsKeptIff`** — a walk finds a part of what is kept of the outcome of another one, and all of it
  on a condition; **`FindsAllIff`** — the same if all of the outcome is kept.
* **`Trails`** — a correspondence of jobs in which the second walk leaves some out.
* **`Trails.findsAllIff`** — the comparison of such walks. -/

namespace PathGlob

variable {ε : Type} {p : Provider ε} {t u : Job ε} {ts us ts' us' : List (Job ε)} {c c' : Prop}

/-! ## What a job leads to -/

/-- **A job leads to another one**, in any number of turns. -/
def Job.Leads (p : Provider ε) : Job ε → Job ε → Prop :=
  Relation.ReflTransGen fun t u => u ∈ t.next p

/-- A job leads to what the jobs lead to that take its place. -/
theorem Job.Leads.head {t' : Job ε} (ht : t' ∈ t.next p) (h : t'.Leads p u) : t.Leads p u :=
  Relation.ReflTransGen.head ht h

/-- **Something holds of all to which a job leads** if it holds of the job itself, and of all to which
the jobs lead that take its place. -/
theorem Job.forall_leads_iff {P : Job ε → Prop} :
    (∀ v, t.Leads p v → P v) ↔ P t ∧ ∀ t' ∈ t.next p, ∀ v, t'.Leads p v → P v := by
  constructor
  · intro h
    exact ⟨h t .refl, fun t' ht' v hv => h v (hv.head ht')⟩
  · rintro ⟨hown, hnext⟩ v hv
    rcases Relation.ReflTransGen.cases_head hv with rfl | ⟨t', ht', hv'⟩
    · exact hown
    · exact hnext t' ht' v hv'

/-- A job finds what the jobs find to which it leads. -/
theorem Job.Leads.finds (h : t.Leads p u) {e : ε} (he : Finds p u e) : Finds p t e := by
  induction h using Relation.ReflTransGen.head_induction_on with
  | refl => exact he
  | head ht _ ih => exact .later ht ih

/-- **In a walk that ends no job goes on for ever.** -/
theorem Ends.acc (h : Ends p ts) : ∀ t ∈ ts, Acc (fun u t => u ∈ t.next p) t := by
  obtain ⟨es, n, hend, -⟩ := h
  -- on the steps of the walk
  induction n generalizing ts with
  | zero =>
    obtain rfl : ts = [] := hend
    exact fun _ ht => by cases ht
  | succ n ih =>
    cases ts with
    | nil => exact fun _ ht => by cases ht
    | cons t ts =>
      have hrest := ih hend
      intro v hv
      rcases List.mem_cons.1 hv with rfl | hv
      · exact Acc.intro v fun u hu => hrest u (List.mem_append_left ts hu)
      · exact hrest v (List.mem_append_right _ hv)

/-- Both parts of a walk that ends do so. -/
theorem Ends.append (h : Ends p (ts ++ us)) : Ends p ts ∧ Ends p us := by
  obtain ⟨es, hes⟩ := h
  obtain ⟨e₁, e₂, h₁, h₂, -⟩ := hes.split
  exact ⟨⟨e₁, h₁⟩, ⟨e₂, h₂⟩⟩

/-- So does each of its jobs. -/
theorem Ends.of_mem (h : Ends p ts) (ht : t ∈ ts) : Ends p [t] := by
  obtain ⟨front, back, rfl⟩ := List.append_of_mem ht
  exact (Ends.append (show Ends p ([t] ++ back) from h.append.2)).1

/-- The jobs that take the place of one that ends do so, too. -/
theorem Ends.next (h : Ends p [t]) : Ends p (t.next p) := by
  obtain ⟨es, n, hend, -⟩ := h
  cases n with
  | zero => cases hend
  | succ n =>
    rw [runWithin_cons, List.append_nil] at hend
    exact ⟨_, n, hend, rfl⟩

/-! ## Comparing outcomes -/

/-- **The walk `us` finds a part of what `keep` leaves of the outcome of the walk `ts`**, in the same
order, and it finds all of it exactly if `c` holds. -/
def FindsKeptIff (p : Provider ε) (keep : ε → Bool) (ts us : List (Job ε)) (c : Prop) : Prop :=
  ∃ es fs, Yields p ts es ∧ Yields p us fs ∧ fs.Sublist (es.filter keep) ∧
    (fs = es.filter keep ↔ c)

section

variable {keep : ε → Bool}

/-- The condition may be put in other words. -/
theorem FindsKeptIff.congr (h : FindsKeptIff p keep ts us c) (hc : c ↔ c') :
    FindsKeptIff p keep ts us c' := by
  rwa [← propext hc]

/-- **Walks one behind the other** find all if each of them does. -/
theorem FindsKeptIff.append (h : FindsKeptIff p keep ts us c) (h' : FindsKeptIff p keep ts' us' c') :
    FindsKeptIff p keep (ts ++ ts') (us ++ us') (c ∧ c') := by
  obtain ⟨es, fs, hes, hfs, hsub, hc⟩ := h
  obtain ⟨es', fs', hes', hfs', hsub', hc'⟩ := h'
  refine ⟨es ++ es', fs ++ fs', hes.append hes', hfs.append hfs', ?_, ?_⟩
  · rw [List.filter_append]
    exact hsub.append hsub'
  · rw [← hc, ← hc', List.filter_append]
    constructor
    · intro heq
      -- no part is longer than what it is a part of, so both are as long
      have hlen := congrArg List.length heq
      have hle := hsub.length_le
      have hle' := hsub'.length_le
      rw [List.length_append, List.length_append] at hlen
      exact ⟨hsub.eq_of_length (by omega), hsub'.eq_of_length (by omega)⟩
    · rintro ⟨heq, heq'⟩
      rw [heq, heq']

/-- Walks without jobs. -/
theorem FindsKeptIff.nil : FindsKeptIff p keep [] [] True :=
  ⟨[], [], Yields.nil, Yields.nil, List.Sublist.refl _, by simp⟩

/-- **Jobs that correspond one by one** find all if each pair of them does. -/
theorem FindsKeptIff.of_zip {R : Job ε → Job ε → Prop} {all : Job ε × Job ε → Prop}
    (h : ∀ t ∈ ts, ∀ u, R t u → FindsKeptIff p keep [t] [u] (all (t, u)))
    (hts : List.Forall₂ R ts us) : FindsKeptIff p keep ts us (∀ q ∈ ts.zip us, all q) := by
  induction hts with
  | nil => exact FindsKeptIff.nil.congr (by simp)
  | @cons t u ts us htu _ ih =>
    have hfirst := h t List.mem_cons_self u htu
    have hothers := ih fun v hv => h v (List.mem_cons_of_mem t hv)
    exact (hfirst.append hothers).congr (by simp)

/-- Whether a pair finds all may hang on the job of the second walk. -/
theorem FindsKeptIff.of_forall₂ {R : Job ε → Job ε → Prop} {all : Job ε → Prop}
    (h : ∀ t ∈ ts, ∀ u, R t u → FindsKeptIff p keep [t] [u] (all u))
    (hts : List.Forall₂ R ts us) : FindsKeptIff p keep ts us (∀ u ∈ us, all u) := by
  have hzip : FindsKeptIff p keep ts us (∀ q ∈ ts.zip us, all q.2) := .of_zip h hts
  refine hzip.congr ?_
  conv_rhs => rw [← List.map_snd_zip hts.length_eq.ge]
  exact List.forall_mem_map.symm

/-- Jobs are compared by what follows them if the second one hands out what is kept of the first. -/
theorem FindsKeptIff.of_next (hown : u.handsOut p = (t.handsOut p).filter keep)
    (h : FindsKeptIff p keep (t.next p) (u.next p) c) : FindsKeptIff p keep [t] [u] c := by
  obtain ⟨es, fs, hes, hfs, hsub, hc⟩ := h
  refine ⟨_, _, hes.single, hfs.single, ?_, ?_⟩
  · rw [hown, List.filter_append]
    exact (List.Sublist.refl _).append hsub
  · rw [hown, List.filter_append, List.append_cancel_left_eq, hc]

end

/-- **The walk `us` finds a part of what the walk `ts` finds**, in the same order, and it finds all of it
exactly if `c` holds. -/
def FindsAllIff (p : Provider ε) (ts us : List (Job ε)) (c : Prop) : Prop :=
  ∃ es fs, Yields p ts es ∧ Yields p us fs ∧ fs.Sublist es ∧ (fs = es ↔ c)

/-- Then all of the outcome is kept. -/
theorem findsAllIff_iff : FindsAllIff p ts us c ↔ FindsKeptIff p (fun _ => true) ts us c := by
  simp only [FindsAllIff, FindsKeptIff, List.filter_true]

/-- The condition may be put in other words. -/
theorem FindsAllIff.congr (h : FindsAllIff p ts us c) (hc : c ↔ c') : FindsAllIff p ts us c' := by
  rwa [← propext hc]

/-- **Walks one behind the other** find all if each of them does. -/
theorem FindsAllIff.append (h : FindsAllIff p ts us c) (h' : FindsAllIff p ts' us' c') :
    FindsAllIff p (ts ++ ts') (us ++ us') (c ∧ c') := by
  rw [findsAllIff_iff] at *
  exact FindsKeptIff.append h h'

/-- Jobs that correspond one by one find all if each of the first walk does. -/
theorem FindsAllIff.of_forall₂ {R : Job ε → Job ε → Prop} {all : Job ε → Prop}
    (h : ∀ t ∈ ts, ∀ u, R t u → FindsAllIff p [t] [u] (all t))
    (hts : List.Forall₂ R ts us) : FindsAllIff p ts us (∀ t ∈ ts, all t) := by
  simp only [findsAllIff_iff] at *
  have hzip : FindsKeptIff p (fun _ => true) ts us (∀ q ∈ ts.zip us, all q.1) := .of_zip h hts
  refine hzip.congr ?_
  conv_rhs => rw [← List.map_fst_zip hts.length_eq.le]
  exact List.forall_mem_map.symm

/-- Jobs that are left out would have to find nothing. -/
theorem FindsAllIff.left_out (h : Ends p ts) :
    FindsAllIff p ts [] (∀ t ∈ ts, ∀ e, ¬Finds p t e) := by
  obtain ⟨es, hes⟩ := h
  refine ⟨es, [], hes, Yields.nil, List.nil_sublist es, ?_⟩
  rw [eq_comm, List.eq_nil_iff_forall_not_mem]
  simp only [hes.mem_iff, not_exists, not_and]
  exact ⟨fun h t ht e => h e t ht, fun h e t ht => h t ht e⟩

/-- Jobs that hand out the same are compared by what follows them. -/
theorem FindsAllIff.of_next (hown : t.handsOut p = u.handsOut p)
    (h : FindsAllIff p (t.next p) (u.next p) c) : FindsAllIff p [t] [u] c := by
  rw [findsAllIff_iff] at *
  exact .of_next (by rw [hown, List.filter_true]) h

/-! ## Trailing behind -/

/-- **A correspondence of jobs in which the second walk leaves some out**: the jobs that take the place
of the two correspond one by one, but for those that are lost at the end of the first ones. -/
structure Trails (p : Provider ε) (R : Job ε → Job ε → Prop) (lost : Job ε → List (Job ε)) :
    Prop where
  /-- The same is handed out. -/
  handsOut {t u : Job ε} : R t u → t.handsOut p = u.handsOut p
  /-- The jobs that follow correspond, but for the lost ones. -/
  next {t u : Job ε} : R t u →
    ∃ kept, t.next p = kept ++ lost t ∧ List.Forall₂ R kept (u.next p)
  /-- Lost jobs are jobs that follow. -/
  lost_subset (t : Job ε) : lost t ⊆ t.next p

/-- **Nothing is lost behind a job**: no lost job to which it leads finds anything. -/
def LosesNothing (p : Provider ε) (lost : Job ε → List (Job ε)) (t : Job ε) : Prop :=
  ∀ u, t.Leads p u → ∀ v ∈ lost u, ∀ e, ¬Finds p v e

variable {R : Job ε → Job ε → Prop} {lost : Job ε → List (Job ε)}

/-- Nothing is lost behind a job if nothing is lost in its turn and behind the jobs that are kept. -/
theorem Trails.losesNothing_iff (h : Trails p R lost) {kept : List (Job ε)}
    (hnext : t.next p = kept ++ lost t) :
    LosesNothing p lost t ↔
      (∀ t' ∈ kept, LosesNothing p lost t') ∧ ∀ v ∈ lost t, ∀ e, ¬Finds p v e := by
  unfold LosesNothing
  rw [Job.forall_leads_iff, hnext]
  constructor
  · rintro ⟨hlost, hnext⟩
    exact ⟨fun t' ht' => hnext t' (List.mem_append_left _ ht'), hlost⟩
  · rintro ⟨hkept, hlost⟩
    refine ⟨hlost, fun t' ht' u hu v hv e he => ?_⟩
    rcases List.mem_append.1 ht' with ht' | ht'
    · exact hkept t' ht' u hu v hv e he
    · -- what is lost behind a lost job is found by that one
      exact hlost t' ht' e (Job.Leads.finds hu (.later (h.lost_subset u hv) he))

/-- A single job of a walk that trails behind. -/
theorem Trails.findsAllIff_single (h : Trails p R lost) (hacc : Acc (fun u t => u ∈ t.next p) t)
    (hend : Ends p [t]) (htu : R t u) : FindsAllIff p [t] [u] (LosesNothing p lost t) := by
  induction hacc generalizing u with
  | intro t _ ih =>
    obtain ⟨kept, hnext, hkept⟩ := h.next htu
    obtain ⟨hendKept, hendLost⟩ := Ends.append (hnext ▸ hend.next)
    have hthose : FindsAllIff p kept (u.next p) (∀ t' ∈ kept, LosesNothing p lost t') :=
      .of_forall₂ (fun t' ht' u' hu' =>
        ih t' (hnext ▸ List.mem_append_left _ ht') (hendKept.of_mem ht') hu') hkept
    have hall := hthose.append (.left_out hendLost)
    rw [← hnext, List.append_nil] at hall
    exact .of_next (h.handsOut htu) (hall.congr (h.losesNothing_iff hnext).symm)

/-- **A walk that trails behind another one** finds a part of what that one finds, and all of it exactly
if nothing is lost. -/
theorem Trails.findsAllIff (h : Trails p R lost) (hts : List.Forall₂ R ts us) (hends : Ends p ts) :
    FindsAllIff p ts us (∀ t ∈ ts, LosesNothing p lost t) :=
  .of_forall₂ (fun t ht _ htu => h.findsAllIff_single (hends.acc t ht) (hends.of_mem ht) htu) hts

end PathGlob
