import PathGlob.Proofs.Cuts
import PathGlob.Proofs.Namespace.Walks
import PathGlob.Proofs.Walk.RelativePaths

/-! # Matches of a pattern, part by part
What a pattern without backslashes finds from a place, told by recursion on its parts. Nothing is asked
of the segments: empty ones, references to directories and drive marks are followed as they are.

* **`Namespace.matchParts`** — the entries that a pattern finds from a place, in order.
* **`Scope.IsSettled`** — the path of a walk behind the first name; **`StaysLocal`** — the patterns that
  bring no separator directly behind the reference to the current directory.
* **`Namespace.IsTree.yields_matchParts`** — the outcome of a visit is what the pattern finds, if it stays
  with the current directory or a name has been taken. -/

namespace PathGlob

variable {s : Namespace} {fs : Flags} {l : Location} {d again : Bool} {w : Text} {part : Part}
  {behind behind' : Bool → Location → List Entry}

/-! ## One part -/

/-- **The entries that a part finds from a place**, in order, if `behind` gives what is found behind it;
its first argument holds where a `**` has just been taken for no directory. -/
def Namespace.matchPart (s : Namespace) (fs : Flags) (part : Part)
    (behind : Bool → Location → List Entry) (l : Location) (again : Bool) : List Entry :=
  if s.kind? l = some .directory then
    if part.wild then
      let close := fun l' => (specialNames fs part.text part.rest?.isNone).flatMap fun name =>
        behind false (stepInto l' name)
      if part.text = doubleStar then
        (if again then [] else behind true l) ++
          s.sweep (nameMatches fs part.text) (behind false) close l
      else
        ((s.childNames l).filter (nameMatches fs part.text)).flatMap
          (fun name => behind false (name :: l)) ++ close l
    else behind false (follow l (pieces '/' part.text))
  else []

/-- Where there is no directory, a part finds nothing. -/
theorem Namespace.matchPart_of_ne (h : s.kind? l ≠ some .directory) :
    s.matchPart fs part behind l again = [] := if_neg h

/-- Segments without wildcards are followed. -/
theorem Namespace.matchPart_literal (h : s.kind? l = some .directory) (hw : part.wild = false) :
    s.matchPart fs part behind l again = behind false (follow l (pieces '/' part.text)) := by
  rw [Namespace.matchPart, if_pos h, hw, if_neg (by simp)]

/-- A segment with a wildcard is tried on the names in the directory. -/
theorem Namespace.matchPart_wild (h : s.kind? l = some .directory) (hw : part.wild = true)
    (hstar : part.text ≠ doubleStar) :
    s.matchPart fs part behind l again =
      ((s.childNames l).filter (nameMatches fs part.text)).flatMap
          (fun name => behind false (name :: l)) ++
        (specialNames fs part.text part.rest?.isNone).flatMap fun name =>
          behind false (stepInto l name) := by
  rw [Namespace.matchPart, if_pos h, if_pos hw, if_neg hstar]

/-- A `**` is first taken for no directory, then it sweeps through the names in the directory. -/
theorem Namespace.matchPart_doubleStar (h : s.kind? l = some .directory) (hw : part.wild = true)
    (hstar : part.text = doubleStar) :
    s.matchPart fs part behind l again =
      (if again then [] else behind true l) ++
        s.sweep (nameMatches fs part.text) (behind false)
          (fun l' => (specialNames fs part.text part.rest?.isNone).flatMap fun name =>
            behind false (stepInto l' name)) l := by
  rw [Namespace.matchPart, if_pos h, if_pos hw, if_pos hstar]

/-! ## All parts -/

/-- **The entries that a pattern finds from a place**, in order, part by part. `again` says that a `**`
at the front is not taken for no directory once more. -/
def Namespace.matchParts (s : Namespace) (fs : Flags) (directoriesOnly : Bool) (pattern : Text)
    (l : Location) (again : Bool) : List Entry :=
  s.matchPart fs (Part.next fs.escapes pattern) (fun again' l' =>
    match _h : (Part.next fs.escapes pattern).rest? with
    | none => (s.entryAt? directoriesOnly l').toList
    | some rest => s.matchParts fs directoriesOnly rest l' again') l again
termination_by pattern.length
decreasing_by exact Part.length_rest_lt _h

/-- What the rest of a pattern finds from a place: the entry there if nothing is left. -/
def Namespace.matchRest (s : Namespace) (fs : Flags) (directoriesOnly : Bool) (rest? : Option Text)
    (again : Bool) (l : Location) : List Entry :=
  match rest? with
  | none => (s.entryAt? directoriesOnly l).toList
  | some rest => s.matchParts fs directoriesOnly rest l again

/-- A pattern finds what its next part finds, with the rest behind it. -/
theorem Namespace.matchParts_eq (hpart : Part.next fs.escapes w = part) :
    s.matchParts fs d w l again = s.matchPart fs part (s.matchRest fs d part.rest?) l again := by
  subst hpart
  rw [Namespace.matchParts]
  congr 1
  funext again' l'
  unfold Namespace.matchRest
  split <;> simp_all

/-- Where there is no directory, a pattern finds nothing. -/
theorem Namespace.matchParts_of_ne (h : s.kind? l ≠ some .directory) :
    s.matchParts fs d w l again = [] := by
  rw [Namespace.matchParts_eq rfl, Namespace.matchPart_of_ne h]

/-- In a directory, nothing but segments without wildcards finds the entry to which they lead. -/
theorem Namespace.matchParts_rest (h : s.kind? l = some .directory) (hw : fs.isWild w = false) :
    s.matchParts fs d w l again = (s.entryAt? d (follow l (pieces '/' w))).toList := by
  rw [Namespace.matchParts_eq (Cuts.rest hw).next_eq, Namespace.matchPart_literal h rfl]
  rfl

/-! ## Paths behind the first name -/

variable {sc : Scope} {base : Text}

/-- **The path of a walk behind the first name**, if the walk is relative. -/
def Scope.IsSettled (sc : Scope) (base : Text) : Prop :=
  sc.relative = true → PathGlob.IsSettled (sc.queryPath base)

/-- **Behind the first name anything may be joined.** -/
theorem Scope.Reaches.joinPath_of_isSettled (h : sc.Reaches s base l) (hs : sc.IsSettled base) {t : Text}
    (ht : '\\' ∉ t) :
    sc.Reaches s (PathGlob.joinPath base t) (follow l (pieces '/' t)) ∧
      sc.IsSettled (PathGlob.joinPath base t) := by
  have hplain : sc.flags.plainText t = t := Flags.plainText_of_not_mem ht
  have hquery : sc.queryPath (PathGlob.joinPath base t) = PathGlob.joinPath (sc.queryPath base) t := by
    rw [Scope.queryPath_eq, h.whole.plainText_joinPath, hplain]
    rfl
  constructor
  · have hstep := h.extend (t := t) (.of_not_mem ht) fun hrel => ?_
    · rwa [hplain, withSlashes_of_not_mem ht] at hstep
    · obtain ⟨c, r, hq, hc⟩ := hs hrel
      rcases h.inner hrel with hb | ⟨r', hb, hr⟩
      · rw [hb] at hq
        cases hq
      · rw [hb] at hq
        obtain rfl : r' = c :: r := by simpa using hq
        rw [hplain, hb]
        unfold PathGlob.joinPath
        split
        · exact ⟨_, rfl, hr.append (by simp) _⟩
        · exact ⟨_, rfl, hr.append (by simp) _⟩
  · intro hrel
    rw [hquery]
    exact (hs hrel).joinPath t

/-- **What does not begin with a separator is a first name.** -/
theorem Scope.Reaches.isSettled_joinPath (h : sc.Reaches s base l) {t : Text}
    (hne : sc.flags.plainText t ≠ []) (hin : IsInner (sc.flags.plainText t)) :
    sc.IsSettled (PathGlob.joinPath base t) := by
  intro hrel
  have hquery : sc.queryPath (PathGlob.joinPath base t) =
      PathGlob.joinPath (sc.queryPath base) (sc.flags.plainText t) := h.whole.plainText_joinPath t
  rw [hquery]
  obtain ⟨c, r, hcr⟩ := List.exists_cons_of_ne_nil hne
  rw [hcr] at hin ⊢
  have hfirst : PathGlob.IsSettled ('.' :: '/' :: c :: r) := ⟨c, r, rfl, (hin c rfl).1⟩
  rcases h.inner hrel with hb | ⟨r', hb, hr'⟩
  · rw [hb]
    exact hfirst
  · rw [hb]
    cases r' with
    | nil => exact hfirst
    | cons c' r' =>
      have hc' : PathGlob.IsSettled ('.' :: '/' :: c' :: r') := ⟨c', r', rfl, (hr' c' rfl).1⟩
      exact hc'.joinPath (c :: r)

/-- **A pattern that stays with the current directory**: it does not begin with a separator, nor does
what stands behind a `**` at its front that may be taken for no directory. -/
structure StaysLocal (pattern : Text) (again : Bool) : Prop where
  /-- It does not begin with a separator. -/
  front : ∀ c ∈ pattern.head?, isSeparator c = false
  /-- What stands behind a `**` does not, either. -/
  behind : again = false → ∀ c rest, isSeparator c = true → pattern = doubleStar ++ c :: rest →
    ∀ c' ∈ rest.head?, isSeparator c' = false

/-- What stands behind such a `**` stays with the current directory, too. -/
theorem StaysLocal.rest {rest : Text} (h : StaysLocal w false)
    (hpart : Part.next fs.escapes w = ⟨doubleStar, true, some rest⟩) : StaysLocal rest true := by
  have hcut := cuts_next fs w
  rw [hpart] at hcut
  cases hcut with
  | segment _ hc _ _ => exact ⟨h.behind rfl _ _ hc rfl, nofun⟩

/-- A first part without wildcards is inner, and it is empty only if nothing is left. -/
theorem StaysLocal.text (h : StaysLocal w again) (hb : '\\' ∉ w)
    (hpart : Part.next fs.escapes w = part) (hw : part.wild = false) :
    IsInner part.text ∧ (part.text = [] → part.rest? = none) := by
  have hinner : ∀ {t : Text}, (∀ c ∈ t.head?, c ∈ w.head?) → IsInner t := by
    intro t ht c hc
    refine ⟨?_, ?_⟩
    · rintro rfl
      exact absurd (h.front _ (ht _ hc)) (by decide)
    · rintro rfl
      exact hb (List.mem_of_mem_head? (ht _ hc))
  have hcut := cuts_next fs w
  rw [hpart] at hcut
  cases hcut with
  | rest _ => exact ⟨hinner fun _ hc => hc, fun _ => rfl⟩
  | @lead t u c _ hc _ _ _ =>
    cases t with
    | nil => exact absurd (h.front c rfl) (by simp [hc])
    | cons c' t => exact ⟨hinner fun _ hc' => hc', nofun⟩
  | last _ _ => cases hw
  | segment _ _ _ _ => cases hw

/-! ## Outcomes -/

/-- The listing of a directory goes on at names, so that a name has always been taken behind it. -/
theorem Scope.goesOn_of_isSettled {rest? : Option Text} {found : Location → List Entry}
    (h : ∀ path l, sc.Reaches s path l → sc.IsSettled path →
      Yields s.provider [continueAt sc path rest?] (found l)) : sc.GoesOn s rest? found := by
  intro base l hbase
  constructor
  · intro name hname
    have hplain := sc.plainText_nameText name
    refine h _ _ (hbase.name hname) (hbase.isSettled_joinPath ?_ ?_)
    · rw [hplain]
      exact hname.ne_nil
    · rw [hplain]
      exact .of_not_mem hname.slash_not_mem hname.backslash_not_mem
  · intro name hname
    have hchars := not_mem_of_mem_references hname
    have hplain : sc.flags.plainText name = name := Flags.plainText_of_not_mem hchars.2
    refine h _ _ (hbase.special hname) (hbase.isSettled_joinPath ?_ ?_)
    · rw [hplain]
      rintro rfl
      simp [currentDirectory, parentDirectory] at hname
    · rw [hplain]
      exact .of_not_mem hchars.1 hchars.2

/-- **The visit of a directory yields what the next part finds**, if going on behind it yields what
`behind` gives. -/
theorem Namespace.IsTree.yields_matchPart (hs : s.IsTree) (h : sc.Reaches s base l) (hb : '\\' ∉ w)
    (hlocal : sc.IsSettled base ∨ StaysLocal w again)
    (hpart : Part.next sc.flags.escapes w = part)
    (hbehind : ∀ path l', sc.Reaches s path l' → (part.rest? ≠ none → sc.IsSettled path) →
      Yields s.provider [continueAt sc path part.rest?] (behind false l'))
    (hzero : part.text = doubleStar → part.wild = true → again = false →
      s.kind? l = some .directory →
      Yields s.provider [.visit sc base (part.rest?.getD []) true] (behind true l)) :
    Yields s.provider [.visit sc base w again] (s.matchPart sc.flags part behind l again) := by
  by_cases hdir : s.kind? l = some .directory
  · refine PathGlob.yields_visit (h.findDirectory_isSome.2 hdir) ?_
    cases hw : part.wild with
    | false =>
      have hbt : '\\' ∉ part.text := hpart ▸ (Part.not_mem hb _).1
      rw [Namespace.matchPart_literal hdir hw, visitJobs_literal (by rw [hpart, hw]), hpart]
      rcases hlocal with hsettled | hlocal
      · obtain ⟨hreach, hsettled'⟩ := h.joinPath_of_isSettled hsettled hbt
        exact hbehind _ _ hreach fun _ => hsettled'
      · -- the part is the first name, or it is empty and nothing is left
        obtain ⟨hin, hnil⟩ := hlocal.text hb hpart hw
        have hplain : sc.flags.plainText part.text = part.text := Flags.plainText_of_not_mem hbt
        have hreach := h.joinPath (t := part.text) (.of_not_mem hbt) (by rwa [hplain])
        rw [hplain, withSlashes_of_not_mem hbt] at hreach
        refine hbehind _ _ hreach fun hrest => h.isSettled_joinPath ?_ ?_
        · rw [hplain]
          exact fun hempty => hrest (hnil hempty)
        · rwa [hplain]
    | true =>
      -- a listing takes a name, and so do the directory itself and its parent
      have hgoes : sc.GoesOn s part.rest? (behind false) :=
        Scope.goesOn_of_isSettled fun path l' hpath hsettled => hbehind path l' hpath fun _ => hsettled
      rw [visitJobs_wild (by rw [hpart, hw]), hpart]
      obtain ⟨text, wild, rest?⟩ := part
      obtain rfl : wild = true := hw
      by_cases hstar : text = doubleStar
      · subst hstar
        rw [Namespace.matchPart_doubleStar hdir rfl rfl]
        refine Yields.append ?_ (hs.yields_enumerate_doubleStar h hpart hgoes)
        cases again with
        | true => exact Yields.nil
        | false => exact hzero rfl rfl rfl hdir
      · rw [Namespace.matchPart_wild hdir rfl hstar, if_neg fun hs' => hstar hs'.1, List.nil_append]
        exact hs.yields_enumerate h hpart hstar hgoes
  · rw [Namespace.matchPart_of_ne hdir]
    exact yields_visit_of_none fun hfound => hdir (h.findDirectory_isSome.1 hfound)

/-- **The visit of a directory yields what the pattern finds from its place**, if a name has been taken
or the pattern stays with the current directory. The induction is on the length of the pattern. -/
theorem Namespace.IsTree.yields_matchParts (hs : s.IsTree) (h : sc.Reaches s base l) (hb : '\\' ∉ w)
    (hlocal : sc.IsSettled base ∨ StaysLocal w again) :
    Yields s.provider [.visit sc base w again]
      (s.matchParts sc.flags sc.directoriesOnly w l again) := by
  induction hn : w.length using Nat.strongRecOn generalizing w base l again with
  | _ n shorter =>
    obtain ⟨part, hpart⟩ : ∃ part, Part.next sc.flags.escapes w = part := ⟨_, rfl⟩
    have hrest : ∀ rest, part.rest? = some rest → rest.length < n ∧ '\\' ∉ rest := fun rest hr =>
      ⟨hn ▸ Part.length_rest_lt (hpart ▸ hr), (Part.not_mem hb _).2 rest (hpart ▸ hr)⟩
    rw [Namespace.matchParts_eq hpart]
    refine hs.yields_matchPart h hb hlocal hpart (fun path l' hpath hsettled => ?_)
      fun hstar hw hagain hdir => ?_
    · -- behind the part a name has been taken, if anything is left
      cases hr : part.rest? with
      | none => exact hpath.yields_candidate
      | some rest =>
        obtain ⟨hlen, hb'⟩ := hrest rest hr
        exact shorter _ hlen hpath hb' (.inl (hsettled (by simp [hr]))) rfl
    · -- a `**` that is taken for no directory leaves the path as it is
      cases hr : part.rest? with
      | none => exact h.yields_visit_nil true hdir
      | some rest =>
        obtain ⟨hlen, hb'⟩ := hrest rest hr
        refine shorter _ hlen h hb' (hlocal.imp_right fun hlocal => ?_) rfl
        obtain ⟨text, wild, rest?⟩ := part
        obtain rfl : text = doubleStar := hstar
        obtain rfl : wild = true := hw
        obtain rfl : rest? = some rest := hr
        subst hagain
        exact hlocal.rest hpart

/-! ## Whole walks -/

variable {pattern : Text}

/-- An absolute walk reaches the place that its path means. -/
theorem Scope.reaches_locate (sc : Scope) (s : Namespace) {path : Text} (hrel : sc.relative = false)
    (hne : path ≠ []) (hb : '\\' ∉ path) : sc.Reaches s path (s.locate path) := by
  have hq : sc.queryPath path = path := Flags.plainText_of_not_mem hb
  exact ⟨.of_not_mem hb, by rw [hq], by rwa [hq], by simp [hrel]⟩

/-- A relative path is followed from the current directory. -/
theorem Namespace.locate_of_relative (s : Namespace) {path : Text} (hb : '\\' ∉ path)
    (h : beginsWith ['/'] path = false) : s.locate path = follow s.cwd (pieces '/' path) := by
  show locateFrom s.cwd path = _
  rw [locateFrom_eq, originOf, withSlashes_of_not_mem hb, h, if_neg (by simp)]

/-- A pattern that names no starting point does not begin with a slash and has no drive mark. -/
theorem not_isAnchored_iff :
    isAnchored pattern = false ↔ beginsWith ['/'] pattern = false ∧ ':' ∉ pattern := by
  simp [isAnchored]

/-- A pattern does not begin with a separator if its first segment has a wildcard. -/
theorem isSeparator_head?_of_wild_front
    (hfirst : .separator ∉ beforeWildcard (marks fs.escapes pattern)) :
    ∀ c ∈ pattern.head?, isSeparator c = false := by
  intro c hc
  obtain ⟨r, rfl⟩ := List.head?_eq_some_iff.1 hc
  cases hsep : isSeparator c with
  | false => rfl
  | true =>
    have hwhole : fs.Whole [] := .nil
    have hmarks := hwhole.marks_separator hsep r
    rw [List.nil_append] at hmarks
    rw [hmarks] at hfirst
    exact absurd List.mem_cons_self hfirst

/-- Nor does it if it names no starting point. -/
theorem isSeparator_head?_of_not_isAnchored (h : isAnchored pattern = false) :
    ∀ c ∈ pattern.head?, isSeparator c = false := by
  obtain ⟨hslash, hcolon⟩ := not_isAnchored_iff.1 h
  intro c hc
  obtain ⟨r, rfl⟩ := List.head?_eq_some_iff.1 hc
  have hne : c ≠ '/' := by
    rintro rfl
    cases hslash
  have hne' : c ≠ ':' := by
    rintro rfl
    simp at hcolon
  simp [isSeparator, hne, hne']

/-- **A pattern without wildcards finds the entry at the place that it means.** -/
theorem Namespace.Reachable.yields_startJobs_rest (hs : s.Reachable) (hne : pattern ≠ [])
    (hb : '\\' ∉ pattern) (hlocal : isAnchored pattern = false → StaysLocal pattern false)
    (hw : fs.isWild pattern = false) :
    Yields s.provider (startJobs fs pattern)
      (s.entryAt? (endsIn '/' pattern) (s.locate pattern)).toList := by
  obtain ⟨htree, hcwd⟩ := hs.isTree
  cases ha : isAnchored pattern with
  | true =>
    rw [startJobs_anchored_literal hne ha hw]
    exact (Scope.reaches_locate ⟨fs, endsIn '/' pattern, false⟩ s rfl hne hb).yields_candidate
  | false =>
    have hstar : pattern ≠ doubleStar := by
      rintro rfl
      simp at hw
    have hvisit := htree.yields_matchParts (Scope.reaches_cwd ⟨fs, endsIn '/' pattern, true⟩ s) hb
      (.inr (hlocal ha))
    rw [Namespace.matchParts_rest hcwd hw] at hvisit
    rwa [startJobs_of_relative hne hstar ha, s.locate_of_relative hb (not_isAnchored_iff.1 ha).1]

/-- **A pattern with leading segments finds what the rest finds from the place that they mean.** -/
theorem Namespace.Reachable.yields_startJobs_lead (hs : s.Reachable) {t u : Text} {c : Char}
    (hb : '\\' ∉ t ++ c :: u)
    (hlocal : isAnchored (t ++ c :: u) = false → StaysLocal (t ++ c :: u) false)
    (hc : isSeparator c = true) (hw : fs.isWild t = false) (hu : fs.isWild u = true)
    (hfirst : .separator ∉ beforeWildcard (marks fs.escapes u)) :
    Yields s.provider (startJobs fs (t ++ c :: u))
      (s.matchParts fs (endsIn '/' (t ++ c :: u)) u (s.locate (t ++ [c])) false) := by
  obtain ⟨htree, hcwd⟩ := hs.isTree
  have hbt : '\\' ∉ t := fun hmem => hb (List.mem_append_left _ hmem)
  have hbu : '\\' ∉ u := fun hmem => hb (List.mem_append_right _ (List.mem_cons_of_mem _ hmem))
  have ht : fs.Whole t := .of_not_mem hbt
  cases ha : isAnchored (t ++ c :: u) with
  | true =>
    have hbc : '\\' ∉ t ++ [c] := fun hmem =>
      hb (List.append_cons t c u ▸ List.mem_append_left u hmem)
    rw [startJobs_anchored_lead ha ht hc hw hu hfirst]
    exact htree.yields_matchParts (Scope.reaches_locate _ s rfl (by simp) hbc) hbu (.inl nofun)
  | false =>
    obtain ⟨hslash, hcolon⟩ := not_isAnchored_iff.1 ha
    -- without a drive mark the separator is a slash, and something stands in front of it
    obtain rfl : c = '/' := by
      refine (isSeparator_iff.1 hc).resolve_right ?_
      rintro rfl
      simp at hcolon
    have hne : t ≠ [] := by
      rintro rfl
      cases hslash
    rw [beginsWith_append_of_ne_nil hne] at hslash
    have hvisit := htree.yields_matchParts
      (Scope.reaches_cwd ⟨fs, endsIn '/' (t ++ '/' :: u), true⟩ s) hb (.inr (hlocal ha))
    rw [Namespace.matchParts_eq (Cuts.lead ht hc hw hu hfirst).next_eq,
      Namespace.matchPart_literal hcwd rfl, ← s.locate_of_relative hbt hslash] at hvisit
    rw [startJobs_of_relative (by simp) (ne_doubleStar_of_mem (by simp)) ha]
    have hplace : s.locate (t ++ ['/']) = s.locate t := locateFrom_slash_end s.cwd hne
    rwa [hplace]

/-- **A pattern with a wildcard in its first segment is matched from the current directory.** -/
theorem Namespace.Reachable.yields_startJobs_wild (hs : s.Reachable) (hstar : pattern ≠ doubleStar)
    (hb : '\\' ∉ pattern) (hlocal : StaysLocal pattern false) (hw : fs.isWild pattern = true)
    (hfirst : .separator ∉ beforeWildcard (marks fs.escapes pattern)) :
    Yields s.provider (startJobs fs pattern)
      (s.matchParts fs (endsIn '/' pattern) pattern s.cwd false) := by
  rw [startJobs_wild_front hstar hw hfirst]
  exact hs.isTree.1.yields_matchParts (Scope.reaches_cwd ⟨fs, endsIn '/' pattern, true⟩ s) hb
    (.inr hlocal)

end PathGlob
