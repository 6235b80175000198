import Mathlib.Data.List.Nodup
import PathGlob.Proofs.Namespace.CanonicalPaths
import PathGlob.Proofs.Traversal.Alignment

/-! # Matches without repetition
A pattern with a single `**` finds no entry twice. All segments but the `**` take one name each, so
that the place of an entry says how many directories the `**` has taken, and a place is reached by one
way only.

* **`Namespace.LiesBelow`** — an entry lies a number of names below a place;
  **`Namespace.IsTree.liesBelow_unique`** says that the number and the entry determine the place.
* **`Namespace.IsTree.nodup_flatMap_childNames`** — below different names lie different entries.
* **`Namespace.IsTree.nodup_sweep`** — a `**` finds nothing twice.
* **`Namespace.IsTree.nodup_matchSegments`** — neither does a list of segments.
* **`Namespace.Reachable.yields_nodup`** — the main statement. -/

namespace PathGlob

variable {s : Namespace} {fs : Flags} {l l' : Location} {d : Bool} {e : Entry} {n n' : Nat}
  {name seg : Text} {segs : List Text}

/-! ## Entries below a place -/

/-- **The entry lies `n` names below the place.** -/
def Namespace.LiesBelow (s : Namespace) (l : Location) (n : Nat) (e : Entry) : Prop :=
  ∃ names k, names.length = n ∧ s.kind? (names ++ l) = some k ∧ e = Node.entry ⟨names ++ l, k⟩

/-- What lies below a child lies one name deeper below its parent. -/
theorem Namespace.LiesBelow.parent (h : s.LiesBelow (name :: l) n e) : s.LiesBelow l (n + 1) e := by
  obtain ⟨names, k, rfl, hk, rfl⟩ := h
  rw [List.append_cons] at hk ⊢
  exact ⟨names ++ [name], k, by simp, hk, rfl⟩

/-- **An entry lies below one place at a number of names**, and the number is smaller the deeper the
place is. -/
theorem Namespace.IsTree.liesBelow_unique (hs : s.IsTree) (h : s.LiesBelow l n e)
    (h' : s.LiesBelow l' n' e) : n + l.length = n' + l'.length ∧ (n = n' → l = l') := by
  obtain ⟨names, k, rfl, hk, rfl⟩ := h
  obtain ⟨names', k', rfl, hk', heq⟩ := h'
  have hplace : names ++ l = names' ++ l' :=
    text_inj (hs.isName_of_kind? hk) (hs.isName_of_kind? hk')
      (congrArg Entry.path heq)
  refine ⟨?_, fun hlen => (List.append_inj hplace hlen).2⟩
  rw [← List.length_append, hplace, List.length_append]

/-- **Nothing is found twice at the names of a directory** if nothing is found twice at a single one:
below different names lie different entries. -/
theorem Namespace.IsTree.nodup_flatMap_childNames (hs : s.IsTree) (accepts : Text → Bool)
    {found : Text → List Entry} (hnodup : ∀ name, (found name).Nodup)
    (hbelow : ∀ name, ∀ e ∈ found name, ∃ n, s.LiesBelow (name :: l) n e) :
    (((s.childNames l).filter accepts).flatMap found).Nodup := by
  rw [List.nodup_flatMap]
  refine ⟨fun name _ => hnodup name, ((hs.nodup_childNames l).filter accepts).imp ?_⟩
  intro name name' hne e he he'
  obtain ⟨n, hn⟩ := hbelow name e he
  obtain ⟨n', hn'⟩ := hbelow name' e he'
  obtain ⟨hdepth, hplace⟩ := hs.liesBelow_unique hn hn'
  simp only [List.length_cons, Nat.add_right_cancel_iff] at hdepth
  exact hne (List.cons.inj (hplace hdepth)).1

/-- Names that lead to an entry lead down to it. -/
theorem Namespace.IsTree.liesBelow_of_leads (hs : s.IsTree) {names : List Text}
    (h : s.Leads l names e) : s.LiesBelow l names.length e := by
  obtain ⟨k, hk, he⟩ := hs.leads_iff.1 h
  exact ⟨names.reverse, k, List.length_reverse, hk, he⟩

/-- Segments of which none is a `**` take a name each. -/
theorem length_flatten_of_takes {runs : List (List Text)} (h : List.Forall₂ (Takes fs) segs runs)
    (hstar : doubleStar ∉ segs) : runs.flatten.length = segs.length := by
  induction h with
  | nil => rfl
  | @cons seg run segs runs htakes _ ih =>
    rw [List.mem_cons, not_or] at hstar
    have hrun : run.length = 1 := by
      cases hw : fs.isWild seg with
      | false =>
        rw [takes_literal_iff hw] at htakes
        rw [htakes, List.length_singleton]
      | true =>
        obtain ⟨name, rfl, -⟩ := (takes_wild_iff (Ne.symm hstar.1) hw).1 htakes
        rfl
    rw [List.flatten_cons, List.length_append, hrun, ih hstar.2, List.length_cons, Nat.add_comm]

/-! ## A single `**` -/

/-- What a sweep finds lies deeper than what is found behind it. -/
theorem Namespace.exists_liesBelow_of_mem_sweep {accepts : Text → Bool}
    {found close : Location → List Entry} (hclose : ∀ l, close l = [])
    (hfound : ∀ l, ∀ e ∈ found l, s.LiesBelow l n e) (he : e ∈ s.sweep accepts found close l) :
    ∃ m, s.LiesBelow l (m + 1 + n) e := by
  induction l using s.directoryInduction with
  | step l below =>
    rw [Namespace.mem_sweep, hclose] at he
    rcases he with ⟨name, -, -, he | ⟨hdir, he⟩⟩ | he
    · exact ⟨0, by simpa [Nat.add_comm] using (hfound _ e he).parent⟩
    · obtain ⟨m, hm⟩ := below name hdir he
      exact ⟨m + 1, by simpa [Nat.add_right_comm] using hm.parent⟩
    · cases he

/-- **A `**` finds nothing twice** if nothing is found twice behind it, and always at the same number
of names below. -/
theorem Namespace.IsTree.nodup_sweep (hs : s.IsTree) {accepts : Text → Bool}
    {found close : Location → List Entry} (hclose : ∀ l, close l = [])
    (hfound : ∀ l, ∀ e ∈ found l, s.LiesBelow l n e) (hnodup : ∀ l, (found l).Nodup) :
    (s.sweep accepts found close l).Nodup := by
  induction l using s.directoryInduction with
  | step l below =>
    rw [Namespace.sweep, hclose, List.append_nil]
    refine hs.nodup_flatMap_childNames accepts (fun name => ?_) fun name e he => ?_
    · refine (hnodup _).append ?_ ?_
      · split
        · rename_i hdir
          exact below name hdir
        · exact List.nodup_nil
      · -- what the `**` finds further down lies deeper
        intro e hfirst hlater
        split at hlater
        · obtain ⟨m, hm⟩ := Namespace.exists_liesBelow_of_mem_sweep hclose hfound hlater
          have hdepth := (hs.liesBelow_unique (hfound _ e hfirst) hm).1
          omega
        · cases hlater
    · rcases List.mem_append.1 he with he | he
      · exact ⟨n, hfound _ e he⟩
      · split at he
        · obtain ⟨m, hm⟩ := Namespace.exists_liesBelow_of_mem_sweep hclose hfound he
          exact ⟨_, hm⟩
        · cases he

/-! ## Segments -/

/-- What segments find lies below the place, and at a name for each of them if there is no `**`. -/
theorem Namespace.IsTree.liesBelow_of_mem_matchSegments (hs : s.IsTree)
    (hdot : fs.has .dotMatch = false) (hclean : CleanSegments fs d segs)
    (href : ∀ seg ∈ segs, ∀ last, specialNames fs seg last = [])
    (hstars : segs.IsChain fun a b => ¬(a = doubleStar ∧ b = doubleStar))
    (he : e ∈ s.matchSegments fs d segs l false) :
    (∃ n, s.LiesBelow l n e) ∧
      (doubleStar ∉ segs → s.LiesBelow l (segs.filter (· ≠ [])).length e) := by
  obtain ⟨runs, hruns, hleads, -⟩ := (hs.mem_matchSegments_iff hdot hclean href hstars).1 he
  have hbelow := hs.liesBelow_of_leads hleads
  refine ⟨⟨_, hbelow⟩, fun hstar => ?_⟩
  rwa [length_flatten_of_takes hruns fun h => hstar (List.mem_of_mem_filter h)] at hbelow

/-- Where a `**` occurs once at most, no two neighbours are both `**`. -/
theorem isChain_of_count_le_one (h : segs.count doubleStar ≤ 1) :
    segs.IsChain fun a b => ¬(a = doubleStar ∧ b = doubleStar) := by
  induction segs with
  | nil => exact .nil
  | cons seg segs ih =>
    have hrest := ih ((List.count_le_count_cons).trans h)
    cases segs with
    | nil => exact .singleton seg
    | cons seg' segs =>
      refine .cons_cons ?_ hrest
      rintro ⟨rfl, rfl⟩
      simp at h

/-- **Segments of which one at most is a `**` find nothing twice.** The induction is on the segments.
Different names lead to different entries, and behind the `**` no other one follows. -/
theorem Namespace.IsTree.nodup_matchSegments (hs : s.IsTree) (hdot : fs.has .dotMatch = false)
    (hclean : CleanSegments fs d segs)
    (href : ∀ seg ∈ segs, ∀ last, specialNames fs seg last = [])
    (hcount : segs.count doubleStar ≤ 1) : (s.matchSegments fs d segs l false).Nodup := by
  induction segs generalizing l with
  | nil =>
    rw [Namespace.matchSegments_nil]
    exact Option.toList_nodup _
  | cons seg rest ih =>
    have hcount' : rest.count doubleStar ≤ 1 := (List.count_le_count_cons).trans hcount
    have href' : ∀ seg ∈ rest, ∀ last, specialNames fs seg last = [] :=
      fun x hx => href x (List.mem_cons_of_mem seg hx)
    have hnodup : ∀ l, (s.matchSegments fs d rest l false).Nodup :=
      fun l => ih hclean.2.2 href' hcount'
    have hbelow := fun l e => hs.liesBelow_of_mem_matchSegments (l := l) (e := e) hdot hclean.2.2
      href' (isChain_of_count_le_one hcount')
    by_cases hdir : s.kind? l = some .directory
    swap
    · rw [Namespace.matchSegments_cons_of_ne hdir]
      exact List.nodup_nil
    cases hw : fs.isWild seg with
    | false =>
      rw [Namespace.matchSegments_literal hdir hw]
      exact hnodup _
    | true =>
      have hclose : ∀ l', ((specialNames fs seg rest.isEmpty).flatMap fun name =>
          s.matchSegments fs d rest (stepInto l' name) false) = [] := by
        intro l'
        rw [href seg List.mem_cons_self, List.flatMap_nil]
      by_cases hseg : seg = doubleStar
      · subst hseg
        have hstar : doubleStar ∉ rest := by
          rw [List.count_cons_self] at hcount
          exact List.count_eq_zero.1 (by omega)
        rw [Namespace.matchSegments_doubleStar hdir, if_neg (by simp),
          Namespace.matchSegments_again (fun h => hstar (List.mem_of_mem_head? h))]
        refine (hnodup l).append
          (hs.nodup_sweep hclose (fun l' e he => (hbelow l' e he).2 hstar) hnodup) ?_
        -- taken for no directory, the `**` leads to entries that lie less deep
        intro e hzero hmore
        obtain ⟨m, hm⟩ := Namespace.exists_liesBelow_of_mem_sweep hclose
          (fun l' e he => (hbelow l' e he).2 hstar) hmore
        have hdepth := (hs.liesBelow_unique ((hbelow l e hzero).2 hstar) hm).1
        omega
      · rw [Namespace.matchSegments_wild hdir hw hseg, hclose, List.append_nil]
        exact hs.nodup_flatMap_childNames _ (fun name => hnodup _) fun name e he => (hbelow _ e he).1

/-! ## Patterns -/

/-- **A pattern with a single `**` finds nothing twice.** Its walk ends, and no entry is handed out
twice, if no segment is empty but a leading or a trailing one and none matches a reference to a
directory; every backslash of the pattern has to be that of an escape. -/
theorem Namespace.Reachable.yields_nodup (hs : s.Reachable) (hdot : fs.has .dotMatch = false)
    {pattern : Text} (hstar : pattern ≠ doubleStar) (hcolon : ':' ∉ pattern)
    (hescaped : WellEscaped fs.escapes pattern)
    (hinner : ∀ seg ∈ (pieces '/' pattern).tail.dropLast, seg ≠ [])
    (href : ∀ seg ∈ pieces '/' pattern, nameMatches fs seg currentDirectory = false ∧
      nameMatches fs seg parentDirectory = false)
    (hcount : (pieces '/' pattern).count doubleStar ≤ 1) :
    ∃ es, Yields s.provider (startJobs fs pattern) es ∧ es.Nodup := by
  by_cases hne : pattern = []
  · -- the empty pattern finds nothing
    subst hne
    exact ⟨[], Yields.nil, List.nodup_nil⟩
  have halignable : Alignable fs pattern :=
    ⟨hne, hstar, hcolon, hescaped, hinner, isChain_of_count_le_one hcount, href⟩
  have hsegs : (segmentsOf pattern).count doubleStar ≤ 1 := by
    have hsub : (segmentsOf pattern).Sublist (pieces '/' pattern) := by
      unfold segmentsOf
      split
      · exact List.tail_sublist _
      · exact List.Sublist.refl _
    exact (hsub.count_le doubleStar).trans hcount
  refine ⟨_, hs.isTree.1.yields_startJobs pattern hne hstar hcolon halignable.clean, ?_⟩
  exact hs.isTree.1.nodup_matchSegments hdot halignable.clean
    (fun seg hseg last => halignable.specialNames_eq_nil (mem_pieces_of_mem_segmentsOf hseg) last)
    hsegs

/-- In the small namespace `/**/x` finds two files, each of them once. -/
theorem Namespace.small_yields_nodup :
    Yields Namespace.small.provider (startJobs Flags.standard "/**/x".toList)
        [⟨"/x".toList, false⟩, ⟨"/d/x".toList, false⟩] ∧
      [(⟨"/x".toList, false⟩ : Entry), ⟨"/d/x".toList, false⟩].Nodup := by
  have hfound : Yields Namespace.small.provider (startJobs Flags.standard "/**/x".toList)
      [⟨"/x".toList, false⟩, ⟨"/d/x".toList, false⟩] :=
    ⟨30, List.isEmpty_iff.1 (by decide +kernel), by decide +kernel⟩
  obtain ⟨es, hes, hnodup⟩ : ∃ es, Yields Namespace.small.provider
      (startJobs Flags.standard "/**/x".toList) es ∧ es.Nodup :=
    Namespace.reachable_small.yields_nodup rfl (by decide) (by decide) (.of_not_mem (by decide))
      (by decide) (by decide) (by decide)
  obtain rfl := hes.unique hfound
  exact ⟨hes, hnodup⟩

end PathGlob
