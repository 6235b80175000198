import Mathlib.Data.List.Chain
import PathGlob.Proofs.Namespace.CanonicalPaths
import PathGlob.Proofs.Namespace.PartMatches

/-! # Relative patterns
A relative pattern finds what the same pattern behind the path of the current directory finds. One walk
starts in the current directory and drops the reference to it wherever it tests an entry; the other one
starts behind the path of the directory. What they have in common are the places that they reach.

* **`exists_joinPath_text`** — a path of a place with a pattern behind it, cut at the separator between
  them.
* **`staysLocal_of_isChain`** — without neighbouring separators a pattern stays with the current directory.
* **`Namespace.Reachable.yields_behind_cwd`** — the comparison of the two walks. -/

namespace PathGlob

variable {s : Namespace} {fs : Flags} {l : Location} {pattern : Text}

/-! ## Behind the path of a place -/

/-- **Behind the path of a place** a text is set off by a separator, and what stands in front of it is
taken from the path. -/
theorem exists_joinPath_text (h : ∀ name ∈ l, IsName name) :
    ∃ front, (∀ t, joinPath l.text t = front ++ '/' :: t) ∧ front ⊆ l.text := by
  cases l with
  | nil => exact ⟨[], fun _ => rfl, List.nil_subset _⟩
  | cons name l =>
    refine ⟨Location.text (name :: l), fun t => ?_, List.Subset.refl _⟩
    rw [joinPath, endsIn_text_cons (h name List.mem_cons_self), if_neg (by simp)]

/-- A pattern behind the path of a place names its starting point. -/
theorem isAnchored_joinPath_text (l : Location) (t : Text) : isAnchored (joinPath l.text t) = true := by
  have hslash : beginsWith ['/'] (joinPath l.text t) = true := by
    unfold joinPath
    split <;> rfl
  rw [isAnchored, hslash, Bool.true_or]

/-- **Behind the path of the current directory** a relative path leads to the same place. -/
theorem Namespace.Reachable.locate_joinPath_cwd (hs : s.Reachable) {t : Text} (hb : '\\' ∉ t)
    (h : beginsWith ['/'] t = false) : s.locate (joinPath s.cwd.text t) = s.locate t := by
  obtain ⟨htree, hcwd⟩ := hs.isTree
  have hnames := htree.isName_of_kind? hcwd
  rw [s.locate_of_relative hb h]
  show locateFrom s.cwd _ = _
  rw [locateFrom_joinPath s.cwd (by simp [Location.text]), locateFrom_text s.cwd hnames,
    withSlashes_of_not_mem hb]

/-! ## Patterns without neighbouring separators -/

/-- **Without neighbouring separators** a pattern that does not begin with one stays with the current
directory. -/
theorem staysLocal_of_isChain
    (hchain : pattern.IsChain fun a b => ¬(isSeparator a = true ∧ isSeparator b = true))
    (hfront : ∀ c ∈ pattern.head?, isSeparator c = false) : StaysLocal pattern false where
  front := hfront
  behind := by
    rintro - c rest hc rfl c' hc'
    have hpair := hchain.right_of_append.rel_head? hc'
    simpa [hc] using hpair

/-! ## The two walks -/

/-- **Relative patterns are resolved against the current directory.** If its path has no wildcards, a
pattern that does not begin with a slash and has neither a backslash nor two neighbouring separators
finds the same entries as behind that path. -/
theorem Namespace.Reachable.yields_behind_cwd (hs : s.Reachable)
    (hcwd : ∀ c ∈ s.cwd.text, isWildcard c = false) (hne : pattern ≠ []) (hstar : pattern ≠ doubleStar)
    (hslash : beginsWith ['/'] pattern = false) (hb : '\\' ∉ pattern)
    (hchain : pattern.IsChain fun a b => ¬(isSeparator a = true ∧ isSeparator b = true)) :
    ∃ es, Yields s.provider (startJobs fs pattern) es ∧
      Yields s.provider (startJobs fs (joinPath s.cwd.text pattern)) es := by
  obtain ⟨htree, hdir⟩ := hs.isTree
  have hnames := htree.isName_of_kind? hdir
  obtain ⟨front, hfront, hsub⟩ := exists_joinPath_text hnames
  have hbf : '\\' ∉ front := fun hmem => backslash_not_mem_text hnames (hsub hmem)
  have hwf : fs.isWild front = false := fs.isWild_of_forall fun c hc => hcwd c (hsub hc)
  have hlocal : isAnchored pattern = false → StaysLocal pattern false := fun ha =>
    staysLocal_of_isChain hchain (isSeparator_head?_of_not_isAnchored ha)
  have hlocal' : isAnchored (joinPath s.cwd.text pattern) = false →
      StaysLocal (joinPath s.cwd.text pattern) false := fun ha => by
    rw [isAnchored_joinPath_text] at ha
    cases ha
  have hend : endsIn '/' (joinPath s.cwd.text pattern) = endsIn '/' pattern := by
    rw [hfront, endsIn_append_cons front '/' hne]
  have hb' : '\\' ∉ joinPath s.cwd.text pattern := by
    rw [hfront]
    simp [hbf, hb]
  have hwild' : ∀ {t : Text}, fs.isWild t = false → fs.isWild (front ++ '/' :: t) = false := by
    intro t ht
    rw [Flags.isWild_eq_false_iff, (Flags.Whole.of_not_mem hbf).marks_separator rfl]
    simp [Flags.isWild_eq_false_iff.1 hwf, Flags.isWild_eq_false_iff.1 ht]
  cases begins fs pattern with
  | literal hw =>
    have hyields := hs.yields_startJobs_rest (joinPath_ne_nil _ _) hb' hlocal'
      (by rw [hfront]; exact hwild' hw)
    rw [hs.locate_joinPath_cwd hb hslash, hend] at hyields
    exact ⟨_, hs.yields_startJobs_rest hne hb hlocal hw, hyields⟩
  | @lead t u c ht hc hw hu hfirst =>
    -- behind the path of the directory there are more leading segments
    have hsplit : joinPath s.cwd.text (t ++ c :: u) = (front ++ '/' :: t) ++ c :: u := by
      rw [hfront, List.append_assoc, List.cons_append]
    have hplace : s.locate ((front ++ '/' :: t) ++ [c]) = s.locate (t ++ [c]) := by
      rw [List.append_cons] at hslash hb
      rw [beginsWith_append_of_ne_nil (by simp)] at hslash
      rw [List.append_assoc, List.cons_append, ← hfront]
      exact hs.locate_joinPath_cwd (fun hmem => hb (List.mem_append_left u hmem)) hslash
    rw [hsplit] at hb' hlocal' hend ⊢
    have hyields := hs.yields_startJobs_lead hb' hlocal' hc (hwild' hw) hu hfirst
    rw [hplace, hend] at hyields
    exact ⟨_, hs.yields_startJobs_lead hb hlocal hc hw hu hfirst, hyields⟩
  | wild hw hfirst =>
    -- behind the path of the directory the whole pattern is left
    have hplace : s.locate (front ++ ['/']) = s.cwd := by
      rw [← hfront, hs.locate_joinPath_cwd (by simp) rfl, s.locate_of_relative (by simp) rfl]
      exact stepInto_nil s.cwd
    refine ⟨_, hs.yields_startJobs_wild hstar hb
      (staysLocal_of_isChain hchain (isSeparator_head?_of_wild_front hfirst)) hw hfirst, ?_⟩
    rw [hfront] at hb' hlocal' hend ⊢
    have hyields := hs.yields_startJobs_lead hb' hlocal' rfl hwf hw hfirst
    rwa [hplace, hend] at hyields

/-- In the small namespace, whose current directory is `/d`, both `../*` and `/d/../*` find `/d` and
`/x`. -/
theorem Namespace.small_yields_behind_cwd :
    Yields Namespace.small.provider (startJobs Flags.standard "../*".toList)
        [⟨"/d".toList, true⟩, ⟨"/x".toList, false⟩] ∧
      Yields Namespace.small.provider (startJobs Flags.standard "/d/../*".toList)
        [⟨"/d".toList, true⟩, ⟨"/x".toList, false⟩] := by
  have htext : Namespace.small.cwd.text = ['/', 'd'] := rfl
  have hfound : Yields Namespace.small.provider (startJobs Flags.standard "../*".toList)
      [⟨"/d".toList, true⟩, ⟨"/x".toList, false⟩] :=
    ⟨20, List.isEmpty_iff.1 (by decide +kernel), by decide +kernel⟩
  obtain ⟨es, hes, hes'⟩ : ∃ es, Yields Namespace.small.provider
      (startJobs Flags.standard "../*".toList) es ∧ Yields Namespace.small.provider
        (startJobs Flags.standard (joinPath Namespace.small.cwd.text "../*".toList)) es :=
    Namespace.reachable_small.yields_behind_cwd (by simp [htext, isWildcard]) (by decide) (by decide)
      (by decide) (by decide) (by decide)
  obtain rfl := hes.unique hfound
  exact ⟨hes, hes'⟩

end PathGlob
