import PathGlob.Proofs.Names
import PathGlob.Proofs.Namespace.Tree
import PathGlob.Proofs.Parts
import PathGlob.Proofs.Walk.Outcome

/-! # Relative walks and absolute paths
A relative walk puts a reference to the current directory in front of all its paths, and drops it
where it tests an entry. What is left is absolute if a separator follows; this module says for which
patterns that can happen.

* **`Leaks`** — the patterns for which it can: an empty segment is reached while no name has been
  taken, and the rest can be matched.
* **`Scope.Keeps`** — the invariant of all other walks; **`Scope.Keeps.step`** preserves it.
* **`asked_inside`** — no question of such a walk is about an absolute path, whatever the answers.
* **`exists_asked_outside`** — for the other patterns there is a provider that is asked one.
* **`asked_inside_iff_not_leaks`** — the two put together. -/

namespace PathGlob

variable {ε : Type} {fs : Flags} {s : Scope}

/-! ## Questions -/

/-- The path that a question is about. -/
def Query.path : Query → Text
  | .findDirectory path => path
  | .findFile path => path
  | .list path _ => path

/-- A path from the root. -/
def IsAbsolute (path : Text) : Prop := path.head? = some '/'

instance (path : Text) : Decidable (IsAbsolute path) := inferInstanceAs (Decidable (_ = _))

/-- **A run in which every step may find another provider**: the hierarchy may change at any time. -/
def runUnder : List (Provider ε) → List (Job ε) → List (Event ε) × List (Job ε)
  | [], ts => ([], ts)
  | _ :: _, [] => ([], [])
  | p :: ps, t :: ts =>
    let (events, new) := (t.action p.entryName).run p
    let (later, rest) := runUnder ps (new ++ ts)
    (events ++ later, rest)

/-- A run is a turn of the first job and a run of the rest. -/
theorem runUnder_cons (p : Provider ε) (ps : List (Provider ε)) (t : Job ε) (ts : List (Job ε)) :
    runUnder (p :: ps) (t :: ts) =
      (t.events p ++ (runUnder ps (t.next p ++ ts)).1, (runUnder ps (t.next p ++ ts)).2) := rfl

@[simp] theorem runUnder_nil (ps : List (Provider ε)) : runUnder ps [] = ([], []) := by
  cases ps <;> rfl

/-- What happens in such a run happens in every longer one. -/
theorem runUnder_subset_append (ps qs : List (Provider ε)) (ts : List (Job ε)) :
    (runUnder ps ts).1 ⊆ (runUnder (ps ++ qs) ts).1 := by
  induction ps generalizing ts with
  | nil => exact List.nil_subset _
  | cons p ps ih =>
    cases ts with
    | nil => simp
    | cons t ts =>
      rw [List.cons_append, runUnder_cons, runUnder_cons]
      exact List.append_subset.2 ⟨List.subset_append_left _ _,
        List.subset_append_of_subset_right _ (ih (t.next p ++ ts))⟩

/-- Under a provider that stays the same this is the run of as many steps. -/
theorem runUnder_replicate (p : Provider ε) (n : Nat) (ts : List (Job ε)) :
    runUnder (List.replicate n p) ts = runWithin p n ts := by
  induction n generalizing ts with
  | zero => rfl
  | succ n ih =>
    cases ts with
    | nil => rfl
    | cons t ts => rw [List.replicate_succ, runUnder_cons, runWithin_cons, ih]

/-! ## Patterns -/

/-- **What remains of a pattern can be matched**: every segment with a wildcard matches some name. -/
inductive Completable (fs : Flags) : Option Text → Prop
  /-- Nothing remains. -/
  | done : Completable fs none
  /-- Segments without wildcards are followed without asking. -/
  | literal {w : Text} (hw : (Part.next fs.escapes w).wild = false)
    (h : Completable fs (Part.next fs.escapes w).rest?) : Completable fs (some w)
  /-- A segment with a wildcard matches a name. -/
  | wild {w name : Text} (hw : (Part.next fs.escapes w).wild = true) (hname : '/' ∉ name)
    (hm : nameMatches fs (Part.next fs.escapes w).text name = true)
    (h : Completable fs (Part.next fs.escapes w).rest?) : Completable fs (some w)

/-- **A separator can come to stand directly behind the reference to the current directory.** Up to
there no name is taken: there are only segments that match the empty name, such as `**`. -/
inductive Leaks (fs : Flags) : Text → Prop
  /-- The segments in front of the next wildcard begin with a separator, and the rest can be
  matched. -/
  | leap {w : Text} (hw : (Part.next fs.escapes w).wild = false)
    (ha : IsAbsolute (Part.next fs.escapes w).text)
    (h : Completable fs (Part.next fs.escapes w).rest?) : Leaks fs w
  /-- An empty segment stands in front of the next wildcard. -/
  | blank {w r : Text} (hw : (Part.next fs.escapes w).wild = false)
    (ht : (Part.next fs.escapes w).text = []) (hr : (Part.next fs.escapes w).rest? = some r)
    (h : Leaks fs r) : Leaks fs w
  /-- A segment matches the empty name. -/
  | skip {w r : Text} (hw : (Part.next fs.escapes w).wild = true)
    (hm : nameMatches fs (Part.next fs.escapes w).text [] = true)
    (hr : (Part.next fs.escapes w).rest? = some r) (h : Leaks fs r) : Leaks fs w

/-- A `**` matches the empty name. -/
theorem nameMatches_doubleStar_nil (fs : Flags) : nameMatches fs doubleStar [] = true := by
  rw [nameMatches_of_compile? rfl (compile?_doubleStar fs)]
  have haccepts : (⟨[.anyRun, .anyRun]⟩ : Segment).accepts fs [] = true :=
    tokensAccept_anyRun fs (tokensAccept_anyRun fs (tokensAccept_nil fs []) (by simp)) (by simp)
  simp [isHidden, haccepts]

/-! ## The invariant -/

/-- The path of a walk in which no name has been taken yet. -/
def IsFresh (path : Text) : Prop := path = ['.'] ∨ path = ['.', '/']

/-- The path of a relative walk behind a first name. -/
def IsSettled (path : Text) : Prop := ∃ c r, path = '.' :: '/' :: c :: r ∧ c ≠ '/'

/-- **The invariant of a walk that stays inside**, for a path and what remains of the pattern
there. -/
inductive Scope.Keeps (s : Scope) (path : Text) (rest? : Option Text) : Prop
  /-- The walk is not relative, and its path is not absolute. -/
  | anchored (hrel : s.relative = false) (hne : path ≠ []) (ha : ¬IsAbsolute path)
  /-- A name has been taken. -/
  | settled (h : IsSettled path)
  /-- No name has been taken, and what remains does not leak. -/
  | fresh (h : IsFresh path) (hrest : ∀ w, rest? = some w → ¬Leaks s.flags w)
  /-- What remains cannot be matched. -/
  | dead (h : path.head? = some '.') (hrest : ¬Completable s.flags rest?)

/-- A path that is not empty keeps its beginning when it is joined. -/
theorem head?_joinPath {base : Text} (h : base ≠ []) (t : Text) :
    (joinPath base t).head? = base.head? := by
  cases base with
  | nil => exact absurd rfl h
  | cons c r =>
    unfold joinPath
    split <;> rfl

/-- Behind the reference to the current directory stands what is joined to it. -/
theorem IsFresh.joinPath {base : Text} (h : IsFresh base) (t : Text) :
    PathGlob.joinPath base t = '.' :: '/' :: t := by
  rcases h with rfl | rfl <;> rfl

/-- Behind a first name further ones change nothing. -/
theorem IsSettled.joinPath {base : Text} (h : IsSettled base) (t : Text) :
    IsSettled (PathGlob.joinPath base t) := by
  obtain ⟨c, r, rfl, hc⟩ := h
  unfold PathGlob.joinPath
  split
  · exact ⟨c, r ++ t, rfl, hc⟩
  · exact ⟨c, r ++ '/' :: t, rfl, hc⟩

variable {base path w : Text} {rest? : Option Text}

/-- No path of such a walk is absolute. -/
theorem Scope.Keeps.not_isAbsolute (h : s.Keeps path rest?) : ¬IsAbsolute path := by
  unfold IsAbsolute
  cases h with
  | anchored _ _ ha => exact ha
  | settled hs =>
    obtain ⟨c, r, rfl, -⟩ := hs
    simp
  | fresh hf _ => rcases hf with rfl | rfl <;> simp
  | dead hd _ => simp [hd]

/-- Neither is a path at which an entry is tested. -/
theorem Scope.Keeps.not_isAbsolute_candidatePath (h : s.Keeps path none)
    (hesc : s.flags.escapes = false) : ¬IsAbsolute (s.candidatePath path) := by
  have hq : s.queryPath path = path := by simp [Scope.queryPath, hesc]
  unfold Scope.candidatePath
  rw [hq]
  cases h with
  | anchored hrel _ ha =>
    split
    · simp [hrel, IsAbsolute]
    · exact ha
  | settled hs =>
    obtain ⟨c, r, rfl, hc⟩ := hs
    simp only
    split <;> simp [IsAbsolute, hc]
  | fresh hf _ =>
    rcases hf with rfl | rfl
    · simp [IsAbsolute]
    · simp only
      split <;> simp [IsAbsolute]
  | dead _ hrest => exact absurd .done hrest

/-- The invariant behind segments without wildcards. -/
theorem Scope.Keeps.literal (h : s.Keeps base (some w))
    (hw : (Part.next s.flags.escapes w).wild = false) :
    s.Keeps (PathGlob.joinPath base (Part.next s.flags.escapes w).text)
      (Part.next s.flags.escapes w).rest? := by
  cases h with
  | anchored hrel hne ha =>
    exact .anchored hrel (joinPath_ne_nil _ _) (by rwa [IsAbsolute, head?_joinPath hne])
  | settled hs => exact .settled (hs.joinPath _)
  | fresh hf hrest =>
    rw [hf.joinPath]
    cases ht : (Part.next s.flags.escapes w).text with
    | nil => exact .fresh (.inr rfl) fun r hr hl => hrest w rfl (.blank hw ht hr hl)
    | cons c r =>
      by_cases hc : c = '/'
      · -- a leap: the rest cannot be matched, since the pattern does not leak
        have ha : IsAbsolute (Part.next s.flags.escapes w).text := by rw [ht, hc]; rfl
        exact .dead rfl fun hcomp => hrest w rfl (.leap hw ha hcomp)
      · exact .settled ⟨c, r, rfl, hc⟩
  | dead hd hrest =>
    have hne : base ≠ [] := fun he => by simp [he] at hd
    exact .dead (by rw [head?_joinPath hne, hd]) fun hcomp => hrest (.literal hw hcomp)

/-- The invariant behind a name that a segment matches, for the rest and for the same segment once
more. -/
theorem Scope.Keeps.name (h : s.Keeps base (some w))
    (hw : (Part.next s.flags.escapes w).wild = true) {name : Text} (hname : '/' ∉ name)
    (hm : nameMatches s.flags (Part.next s.flags.escapes w).text name = true) :
    s.Keeps (PathGlob.joinPath base name) (Part.next s.flags.escapes w).rest? ∧
      s.Keeps (PathGlob.joinPath base name) (some w) := by
  cases h with
  | anchored hrel hne ha =>
    have hne' := joinPath_ne_nil base name
    have ha' : ¬IsAbsolute (PathGlob.joinPath base name) := by rwa [IsAbsolute, head?_joinPath hne]
    exact ⟨.anchored hrel hne' ha', .anchored hrel hne' ha'⟩
  | settled hs => exact ⟨.settled (hs.joinPath name), .settled (hs.joinPath name)⟩
  | fresh hf hrest =>
    rw [hf.joinPath]
    cases name with
    | nil =>
      -- the empty name leaves the path as it was
      exact ⟨.fresh (.inr rfl) fun r hr hl => hrest w rfl (.skip hw hm hr hl),
        .fresh (.inr rfl) hrest⟩
    | cons c r =>
      have hc : c ≠ '/' := fun he => hname (he ▸ List.mem_cons_self)
      exact ⟨.settled ⟨c, r, rfl, hc⟩, .settled ⟨c, r, rfl, hc⟩⟩
  | dead hd hrest =>
    have hne : base ≠ [] := fun he => by simp [he] at hd
    have hd' : (PathGlob.joinPath base name).head? = some '.' := by rw [head?_joinPath hne, hd]
    exact ⟨.dead hd' fun hcomp => hrest (.wild hw hname hm hcomp), .dead hd' hrest⟩

/-- The empty pattern does not leak. -/
theorem not_leaks_nil (fs : Flags) : ¬Leaks fs [] := by
  have hnext : Part.next fs.escapes [] = ⟨[], false, none⟩ := rfl
  rintro (⟨-, ha, -⟩ | ⟨-, -, hr, -⟩ | ⟨hw, -, -, -⟩)
  · rw [hnext] at ha
    cases ha
  · rw [hnext] at hr
    cases hr
  · rw [hnext] at hw
    cases hw

/-- The invariant behind a `**` that is taken for no directory. -/
theorem Scope.Keeps.zero (h : s.Keeps base (some w))
    (hw : (Part.next s.flags.escapes w).wild = true)
    (ht : (Part.next s.flags.escapes w).text = doubleStar) :
    s.Keeps base (some ((Part.next s.flags.escapes w).rest?.getD [])) := by
  have hm : nameMatches s.flags (Part.next s.flags.escapes w).text [] = true := by
    rw [ht, nameMatches_doubleStar_nil]
  cases h with
  | anchored hrel hne ha => exact .anchored hrel hne ha
  | settled hs => exact .settled hs
  | fresh hf hrest =>
    apply Scope.Keeps.fresh hf
    intro r hr hl
    cases hnext : (Part.next s.flags.escapes w).rest? with
    | none =>
      obtain rfl : [] = r := by simpa [hnext] using hr
      exact not_leaks_nil _ hl
    | some r' =>
      obtain rfl : r' = r := by simpa [hnext] using hr
      exact hrest w rfl (.skip hw hm hnext hl)
  | dead hd hrest =>
    refine .dead hd fun hcomp => hrest (.wild hw (by simp) hm ?_)
    cases hnext : (Part.next s.flags.escapes w).rest? with
    | none => exact .done
    | some r => simpa [hnext] using hcomp

/-! ## Steps and runs -/

/-- **The job of a walk that stays inside.** -/
def Job.StaysInside : Job ε → Prop
  | .visit s base w _ => s.flags.escapes = false ∧ s.Keeps base (some w)
  | .enumerate s base w => s.flags.escapes = false ∧ s.Keeps base (some w) ∧
      (Part.next s.flags.escapes w).wild = true
  | .candidate s path => s.flags.escapes = false ∧ s.Keeps path none
  | .tryFile path => ¬IsAbsolute path
  | .deliver _ => True
  | .report _ => True

/-- Going on behind a part stays inside if the invariant holds there. -/
theorem staysInside_continueAt (hesc : s.flags.escapes = false) (h : s.Keeps path rest?) :
    (continueAt s path rest? : Job ε).StaysInside := by
  cases rest? with
  | none => exact ⟨hesc, h⟩
  | some w => exact ⟨hesc, h⟩

/-- A turn asks no other question than that of the job. -/
theorem eq_of_asked_mem {p : Provider ε} {note? : Option Note} {query q : Query}
    {proceed : query.Answer ε → List (Job ε)} {a : q.Answer ε}
    (h : .asked q a ∈ ((Action.ask note? query proceed).run p).1) : q = query := by
  unfold Action.run at h
  rcases List.mem_append.1 h with h | h
  · cases note? with
    | none => cases h
    | some n => cases List.mem_singleton.1 h
  · cases List.mem_singleton.1 h
    rfl

/-- No question of such a job is about an absolute path. -/
theorem Job.StaysInside.asked {t : Job ε} (h : t.StaysInside) {p : Provider ε} {q : Query}
    {a : q.Answer ε} (ha : .asked q a ∈ ((t.action p.entryName).run p).1) : ¬IsAbsolute q.path := by
  cases t with
  | visit s base w again =>
    obtain rfl := eq_of_asked_mem ha
    have hq : s.queryPath base = base := by simp [Scope.queryPath, h.1]
    rw [Query.path, hq]
    exact h.2.not_isAbsolute
  | enumerate s base w =>
    obtain rfl := eq_of_asked_mem ha
    have hq : s.queryPath base = base := by simp [Scope.queryPath, h.1]
    rw [Query.path, hq]
    exact h.2.1.not_isAbsolute
  | candidate s path =>
    obtain rfl := eq_of_asked_mem ha
    exact h.2.not_isAbsolute_candidatePath h.1
  | tryFile path =>
    obtain rfl := eq_of_asked_mem ha
    exact h
  | deliver e => cases List.mem_singleton.1 ha
  | report n => cases List.mem_singleton.1 ha

/-- **A turn of such a job leads to such jobs.** -/
theorem Job.StaysInside.next {t : Job ε} (h : t.StaysInside) {p : Provider ε}
    (hp : ∀ x, '/' ∉ p.entryName x) : ∀ t' ∈ t.next p, t'.StaysInside := by
  intro t' ht'
  cases t with
  | visit s base w again =>
    obtain ⟨hesc, hkeeps⟩ := h
    rw [Job.next_visit] at ht'
    split at ht'
    · rw [mem_visitJobs_iff] at ht'
      split at ht'
      · rename_i hw
        rcases ht' with ⟨ht, -, rfl⟩ | rfl
        · exact ⟨hesc, hkeeps.zero hw ht⟩
        · exact ⟨hesc, hkeeps, hw⟩
      · rename_i hw
        subst ht'
        exact staysInside_continueAt hesc (hkeeps.literal (by simpa using hw))
    · cases ht'
  | enumerate s base w =>
    obtain ⟨hesc, hkeeps, hw⟩ := h
    have hname : ∀ name, s.nameText name = name := fun name => by simp [Scope.nameText, hesc]
    rw [Job.next_enumerate, List.mem_append, List.mem_flatMap] at ht'
    rcases ht' with ⟨name, hmem, ht'⟩ | ht'
    · obtain ⟨x, -, rfl⟩ := List.mem_map.1 hmem
      rw [mem_nameJobs_iff, hname] at ht'
      obtain ⟨hm, rfl | ⟨-, rfl⟩⟩ := ht'
      · exact staysInside_continueAt hesc (hkeeps.name hw (hp x) hm).1
      · exact ⟨hesc, (hkeeps.name hw (hp x) hm).2⟩
    · obtain ⟨-, name, hmem, hm, rfl⟩ := mem_specialJobs_iff.1 ht'
      have hslash := (not_mem_of_mem_references hmem).1
      exact staysInside_continueAt hesc (hkeeps.name hw hslash hm).1
  | candidate s path =>
    rcases Job.next_candidate_cases p s path with ⟨e, hn⟩ | hn | hn
    · rw [hn] at ht'
      obtain rfl := List.mem_singleton.1 ht'
      trivial
    · rw [hn] at ht'
      cases ht'
    · rw [hn] at ht'
      obtain rfl := List.mem_singleton.1 ht'
      exact h.2.not_isAbsolute_candidatePath h.1
  | tryFile path =>
    rw [Job.next_tryFile, List.mem_map] at ht'
    obtain ⟨e, -, rfl⟩ := ht'
    trivial
  | deliver e => cases ht'
  | report n => cases ht'

/-- **No question of such a walk is about an absolute path**, whatever the providers answer. -/
theorem asked_inside {ps : List (Provider ε)} (hps : ∀ p ∈ ps, ∀ x, '/' ∉ p.entryName x)
    {ts : List (Job ε)} (hts : ∀ t ∈ ts, t.StaysInside) {q : Query} {a : q.Answer ε}
    (ha : .asked q a ∈ (runUnder ps ts).1) : ¬IsAbsolute q.path := by
  induction ps generalizing ts with
  | nil => cases ha
  | cons p ps ih =>
    cases ts with
    | nil => cases ha
    | cons t ts =>
      have ht := hts t (by simp)
      rw [runUnder_cons] at ha
      rcases List.mem_append.1 ha with ha | ha
      · exact ht.asked ha
      · apply ih (fun p' hp' => hps p' (by simp [hp'])) _ ha
        intro t' ht'
        rcases List.mem_append.1 ht' with hn | hr
        · exact ht.next (hps p (by simp)) t' hn
        · exact hts t' (by simp [hr])

/-! ## A provider that leads outside -/

/-- A name without a separator. -/
abbrev PlainName := { name : Text // '/' ∉ name }

/-- The empty name. -/
def PlainName.empty : PlainName := ⟨[], by simp⟩

/-- **A provider that has every directory**, each with the same names in it. -/
def cooperative (names : List PlainName) : Provider PlainName where
  pathOf := Subtype.val
  findDirectory _ := some PlainName.empty
  findFile _ := none
  children _ := names
  entryName := Subtype.val

/-- **The walk asks for an absolute path without ever leaving the first job**: its own question is
one, or the first of the jobs that take its place leads to one. -/
inductive AsksOutside (p : Provider ε) : Job ε → Prop
  /-- The job itself asks for an absolute path. -/
  | own {t : Job ε} {q : Query} {a : q.Answer ε}
    (h : .asked q a ∈ ((t.action p.entryName).run p).1) (hq : IsAbsolute q.path) : AsksOutside p t
  /-- The first job in its place leads to such a question. -/
  | first {t t' : Job ε} {ts : List (Job ε)} (h : t.next p = t' :: ts) (h' : AsksOutside p t') :
    AsksOutside p t

/-- Then a run of finitely many steps asks for an absolute path. -/
theorem AsksOutside.exists_run {p : Provider ε} {t : Job ε} (h : AsksOutside p t)
    (ts : List (Job ε)) :
    ∃ (n : Nat) (q : Query) (a : q.Answer ε),
      .asked q a ∈ (runWithin p n (t :: ts)).1 ∧ IsAbsolute q.path := by
  induction h generalizing ts with
  | @own t q a h hq =>
    refine ⟨1, q, a, ?_, hq⟩
    rw [runWithin_cons]
    exact List.mem_append_left _ h
  | @first t t' us h _ ih =>
    obtain ⟨n, q, a, ha, hq⟩ := ih (us ++ ts)
    refine ⟨n + 1, q, a, ?_, hq⟩
    rw [runWithin_cons, h]
    exact List.mem_append_right _ ha

variable {names : List PlainName} {again : Bool}

/-- Under such a provider a visit goes on in the directory. -/
theorem next_visit_cooperative :
    (Job.visit s base w again).next (cooperative names) = visitJobs s base w again := by
  rw [Job.next_visit]
  rfl

/-- Under such a provider the listing of a directory goes on with the first name that matches. -/
theorem exists_next_enumerate {name : PlainName} (hmem : name ∈ names)
    (hm : nameMatches s.flags (Part.next s.flags.escapes w).text name = true) :
    ∃ (first : PlainName) (ts : List (Job PlainName)), (names.head? = some name → first = name) ∧
      (Job.enumerate s base w).next (cooperative names) =
        continueAt s (joinPath base (s.nameText first))
          (Part.next s.flags.escapes w).rest? :: ts := by
  have hnames : ((cooperative names).children (s.queryPath base)).map (cooperative names).entryName =
      names.map Subtype.val := rfl
  rw [Job.next_enumerate, hnames]
  clear hnames
  generalize (specialJobs s base w : List (Job PlainName)) = us
  induction names with
  | nil => cases hmem
  | cons x names ih =>
    rw [List.map_cons, List.flatMap_cons, List.append_assoc]
    by_cases hx : nameMatches s.flags (Part.next s.flags.escapes w).text x = true
    · rw [nameJobs_of_matches hx]
      exact ⟨x, _, by simp, rfl⟩
    · have hne : x ≠ name := by
        rintro rfl
        exact hx hm
      obtain ⟨first, ts, -, hts⟩ := ih ((List.mem_cons.1 hmem).resolve_left hne.symm)
      rw [nameJobs_of_not_matches hx, List.nil_append, hts]
      exact ⟨first, ts, by simp [hne], rfl⟩

/-- The path of a relative walk in which two separators follow the reference to where it started. -/
def IsOutside (path : Text) : Prop := ∃ r, path = '.' :: '/' :: '/' :: r

/-- Such a path stays one. -/
theorem IsOutside.joinPath {base : Text} (h : IsOutside base) (t : Text) :
    IsOutside (PathGlob.joinPath base t) := by
  obtain ⟨r, rfl⟩ := h
  unfold PathGlob.joinPath
  split
  · exact ⟨r ++ t, rfl⟩
  · exact ⟨r ++ '/' :: t, rfl⟩

/-- **The test of an entry there asks for an absolute path.** -/
theorem IsOutside.asksOutside (h : IsOutside path) (hesc : s.flags.escapes = false)
    (hrel : s.relative = true) (p : Provider ε) : AsksOutside p (.candidate s path) := by
  obtain ⟨r, rfl⟩ := h
  have hpath : s.candidatePath ('.' :: '/' :: '/' :: r) = '/' :: r := by
    simp [Scope.candidatePath, Scope.queryPath, hesc, hrel]
  refine .own (q := .findDirectory (s.candidatePath ('.' :: '/' :: '/' :: r)))
    (List.mem_append_right _ List.mem_cons_self) ?_
  rw [Query.path, hpath]
  rfl

/-- A `**` is first taken for no directory, unless it was just before; otherwise the directory is
listed. -/
theorem asksOutside_visit_wild (hw : (Part.next s.flags.escapes w).wild = true)
    (hzero : AsksOutside (cooperative names)
      (.visit s base ((Part.next s.flags.escapes w).rest?.getD []) true))
    (hlist : AsksOutside (cooperative names) (.enumerate s base w)) :
    AsksOutside (cooperative names) (.visit s base w again) := by
  have hjobs := visitJobs_wild (ε := PlainName) hw base again
  -- the first job is that for no directory if there is one
  by_cases hstar : (Part.next s.flags.escapes w).text = doubleStar ∧ ¬again
  · rw [if_pos hstar] at hjobs
    exact .first (next_visit_cooperative.trans hjobs) hzero
  · rw [if_neg hstar] at hjobs
    exact .first (next_visit_cooperative.trans hjobs) hlist

/-- Segments without wildcards are followed. -/
theorem asksOutside_visit_literal (hw : (Part.next s.flags.escapes w).wild = false)
    (h : AsksOutside (cooperative names)
      (continueAt s (joinPath base (Part.next s.flags.escapes w).text)
        (Part.next s.flags.escapes w).rest?)) :
    AsksOutside (cooperative names) (.visit s base w again) := by
  exact .first (next_visit_cooperative.trans (visitJobs_literal hw base again)) h

/-- **What remains leads outside from a path**: to the test of an entry, be it after further segments,
whether or not a `**` was just taken for no directory. -/
def LeadsOutside (names : List PlainName) (s : Scope) (path : Text) (rest? : Option Text) : Prop :=
  AsksOutside (cooperative names) (continueAt s path rest?) ∧
    AsksOutside (cooperative names) (.visit s path (rest?.getD []) true)

/-- **If the rest can be matched, some names lead to the test of an entry.** The induction is on the
segments that are left; each of them that has a wildcard adds a name that it matches. -/
theorem Completable.exists_names (h : Completable fs rest?) (hesc : fs.escapes = false) :
    ∃ names : List PlainName, ∀ all, names ⊆ all → ∀ (s : Scope) path, s.flags = fs →
      s.relative = true → IsOutside path → LeadsOutside all s path rest? := by
  induction h with
  | done =>
    refine ⟨[], ?_⟩
    rintro all - s path rfl hrel hout
    have hempty : Part.next s.flags.escapes [] = ⟨[], false, none⟩ := rfl
    refine ⟨hout.asksOutside hesc hrel _, asksOutside_visit_literal rfl ?_⟩
    exact (hout.joinPath []).asksOutside hesc hrel _
  | @literal w hw _ ih =>
    obtain ⟨names, ih⟩ := ih
    refine ⟨names, ?_⟩
    rintro all hall s path rfl hrel hout
    have hrest := (ih all hall s _ rfl hrel (hout.joinPath (Part.next s.flags.escapes w).text)).1
    exact ⟨asksOutside_visit_literal hw hrest, asksOutside_visit_literal hw hrest⟩
  | @wild w name hw hname hm _ ih =>
    obtain ⟨names, ih⟩ := ih
    refine ⟨⟨name, hname⟩ :: names, ?_⟩
    rintro all hall s path rfl hrel hout
    rw [List.cons_subset] at hall
    have hrest := fun path hout => ih all hall.2 s path rfl hrel hout
    obtain ⟨first, ts, -, hnext⟩ := exists_next_enumerate hall.1 hm
    have hlist := AsksOutside.first hnext (hrest _ (hout.joinPath _)).1
    exact ⟨asksOutside_visit_wild hw (hrest path hout).2 hlist,
      asksOutside_visit_wild hw (hrest path hout).2 hlist⟩

/-- **A pattern that leaks has a provider that is asked for an absolute path.** The empty name comes
first in every directory of it, so that no name is taken before the leap. -/
theorem Leaks.exists_names (h : Leaks fs w) (hesc : fs.escapes = false) :
    ∃ names : List PlainName, ∀ (s : Scope) base again, s.flags = fs → s.relative = true →
      IsFresh base → AsksOutside (cooperative (.empty :: names)) (.visit s base w again) := by
  induction h with
  | @leap w hw ha hcomp =>
    obtain ⟨names, h⟩ := hcomp.exists_names hesc
    refine ⟨names, ?_⟩
    rintro s base again rfl hrel hfresh
    refine asksOutside_visit_literal hw (h _ (List.subset_cons_self _ _) s _ rfl hrel ?_).1
    rw [hfresh.joinPath]
    obtain ⟨r, hr⟩ := List.head?_eq_some_iff.1 ha
    exact ⟨r, by rw [hr]⟩
  | @blank w r hw ht hr _ ih =>
    obtain ⟨names, ih⟩ := ih
    refine ⟨names, ?_⟩
    rintro s base again rfl hrel hfresh
    refine asksOutside_visit_literal hw ?_
    rw [hr, ht, hfresh.joinPath]
    exact ih s _ false rfl hrel (.inr rfl)
  | @skip w r hw hm hr _ ih =>
    obtain ⟨names, ih⟩ := ih
    refine ⟨names, ?_⟩
    rintro s base again rfl hrel hfresh
    have hm' : nameMatches s.flags (Part.next s.flags.escapes w).text PlainName.empty = true := hm
    -- the empty name is the first one in every directory
    obtain ⟨first, ts, hfirst, hnext⟩ := exists_next_enumerate List.mem_cons_self hm'
    obtain rfl := hfirst rfl
    have hname : s.nameText PlainName.empty = [] := by simp [Scope.nameText, hesc, PlainName.empty]
    refine asksOutside_visit_wild hw ?_ (.first hnext ?_)
    · rw [hr]
      exact ih s base true rfl hrel hfresh
    · rw [hr, hname, hfresh.joinPath]
      exact ih s _ false rfl hrel (.inr rfl)

/-! ## Walks of relative patterns -/

/-- **The walk of a pattern that is not absolute starts in the current directory**: the pattern has no
drive mark, or its first drive mark stands behind a wildcard. -/
def StartsInCurrent (fs : Flags) (pattern : Text) : Prop :=
  isAnchored pattern = true → leadEnd? (marks fs.escapes pattern) = none

/-- The leading segments of a pattern are not empty. -/
theorem leadEnd?_ne_zero {pattern : Text} {n : Nat} (hne : pattern ≠ [])
    (h : leadEnd? (marks fs.escapes pattern) = some n) : n ≠ 0 := by
  unfold leadEnd? at h
  split at h
  · have hpos := (behindLastSeparator?_bounds h).1
    omega
  · rw [length_marks] at h
    obtain rfl := Option.some.inj h
    simpa using hne

/-- How a walk begins. -/
theorem startJobs_cases (fs : Flags) {pattern q : Text} (hq : walkedPattern pattern = q)
    (hne : q ≠ []) :
    StartsInCurrent fs q ∧ (startJobs fs pattern : List (Job ε)) =
        [.visit ⟨fs, endsIn '/' q, true⟩ currentDirectory q false] ∨
      ¬StartsInCurrent fs q ∧ ((startJobs fs pattern : List (Job ε)) =
          [.candidate ⟨fs, endsIn '/' q, false⟩ q] ∨
        ∃ n ≠ 0, (startJobs fs pattern : List (Job ε)) =
          [.visit ⟨fs, endsIn '/' q, false⟩ (q.take n) (q.drop n) false]) := by
  have hempty : q.isEmpty = false := by simpa using hne
  unfold startJobs
  rw [hq]
  simp only [hempty, Bool.false_eq_true, if_false]
  cases ha : isAnchored q with
  | false => exact .inl ⟨fun h => absurd (ha.symm.trans h) (by simp), by simp⟩
  | true =>
    cases hlead : leadEnd? (marks fs.escapes q) with
    | none =>
      have hlen : ¬0 = q.length := fun h => hne (List.length_eq_zero_iff.1 h.symm)
      exact .inl ⟨fun _ => hlead, by simp [hlen]⟩
    | some n =>
      have hn := leadEnd?_ne_zero hne hlead
      refine .inr ⟨fun h => absurd ((h ha).symm.trans hlead) (by simp), ?_⟩
      by_cases hlen : n = q.length
      · exact .inl (by simp [hlen])
      · exact .inr ⟨n, hn, by simp [hlen, hn]⟩

/-- What is walked is relative if the pattern is. -/
theorem not_isAbsolute_walkedPattern {pattern : Text} (h : ¬IsAbsolute pattern) :
    ¬IsAbsolute (walkedPattern pattern) := by
  unfold walkedPattern
  split
  · simp [IsAbsolute]
  · exact h

/-- **The invariant holds at the beginning**, unless the walk starts in the current directory and its
pattern leaks. -/
theorem staysInside_startJobs (hesc : fs.escapes = false) {pattern q : Text}
    (hq : walkedPattern pattern = q) (habs : ¬IsAbsolute q)
    (hnot : ¬(StartsInCurrent fs q ∧ Leaks fs q)) :
    ∀ t ∈ (startJobs fs pattern : List (Job ε)), t.StaysInside := by
  intro t ht
  by_cases hne : q = []
  · have hjobs : (startJobs fs pattern : List (Job ε)) = [] := by
      unfold startJobs
      rw [hq, hne]
      rfl
    rw [hjobs] at ht
    cases ht
  · rcases startJobs_cases fs hq hne with ⟨hcurrent, hjobs⟩ | ⟨-, hjobs | ⟨n, hn, hjobs⟩⟩
    · -- in the current directory no name has been taken
      rw [hjobs] at ht
      obtain rfl := List.mem_singleton.1 ht
      refine ⟨hesc, .fresh (.inl rfl) ?_⟩
      rintro w ⟨⟩ hl
      exact hnot ⟨hcurrent, hl⟩
    · rw [hjobs] at ht
      obtain rfl := List.mem_singleton.1 ht
      exact ⟨hesc, .anchored rfl hne habs⟩
    · -- the leading segments are not empty and begin as the pattern does
      rw [hjobs] at ht
      obtain rfl := List.mem_singleton.1 ht
      cases q with
      | nil => exact absurd rfl hne
      | cons c r =>
        obtain ⟨k, rfl⟩ := Nat.exists_eq_succ_of_ne_zero hn
        exact ⟨hesc, .anchored rfl (by simp) (by simpa [IsAbsolute] using habs)⟩

/-- **A walk of a relative pattern asks for no absolute path, whatever the hierarchy and however it
changes, exactly if it does not start in the current directory or its pattern does not leak.** -/
theorem asked_inside_iff_not_leaks (hesc : fs.escapes = false) {pattern : Text}
    (hrel : ¬IsAbsolute pattern) :
    (∀ (ε : Type) (ps : List (Provider ε)), (∀ p ∈ ps, ∀ x, '/' ∉ p.entryName x) →
      ∀ (q : Query) (a : q.Answer ε), .asked q a ∈ (runUnder ps (startJobs fs pattern)).1 →
        ¬IsAbsolute q.path) ↔
      ¬(StartsInCurrent fs (walkedPattern pattern) ∧ Leaks fs (walkedPattern pattern)) := by
  have habs := not_isAbsolute_walkedPattern hrel
  generalize hq : walkedPattern pattern = w at habs
  constructor
  · -- the walk starts in the current directory and leaks: some provider is asked
    rintro hinside ⟨hcurrent, hleaks⟩
    have hne : w ≠ [] := by
      rintro rfl
      exact not_leaks_nil fs hleaks
    obtain ⟨names, hasks⟩ := hleaks.exists_names hesc
    obtain ⟨-, hjobs⟩ := (startJobs_cases fs hq hne).resolve_right fun h => h.1 hcurrent
    obtain ⟨n, q, a, ha, hout⟩ :=
      (hasks ⟨fs, endsIn '/' w, true⟩ currentDirectory false rfl rfl (.inl rfl)).exists_run []
    rw [← hjobs, ← runUnder_replicate] at ha
    apply hinside PlainName _ _ q a ha hout
    intro p hp x
    rw [List.eq_of_mem_replicate hp]
    exact x.2
  · intro hnot ε ps hps q a ha
    exact asked_inside hps (staysInside_startJobs hesc hq habs hnot) ha

/-- The walk of `**//x` does not stay inside: the `**` matches the empty name, and `/x` leaps. -/
theorem not_asked_inside_of_leap :
    ¬∀ (ε : Type) (ps : List (Provider ε)), (∀ p ∈ ps, ∀ x, '/' ∉ p.entryName x) →
      ∀ (q : Query) (a : q.Answer ε),
        .asked q a ∈ (runUnder ps (startJobs Flags.standard ['*', '*', '/', '/', 'x'])).1 →
          ¬IsAbsolute q.path := by
  intro hinside
  refine (asked_inside_iff_not_leaks rfl (by decide)).1 hinside ⟨fun h => absurd h (by decide), ?_⟩
  exact .skip rfl rfl rfl (.leap rfl rfl .done)

/-- **A relative walk may ask for an absolute path**: in the small namespace `**//x` finds `/x`,
although the current directory is `/d`. -/
theorem Namespace.small_asked_outside :
    Namespace.small.Reachable ∧
      (∃ a, .asked (.findDirectory ['/', 'x']) a ∈ (runWithin Namespace.small.provider 3
        (startJobs Flags.standard ['*', '*', '/', '/', 'x'])).1) ∧
      Yields Namespace.small.provider (startJobs Flags.standard ['*', '*', '/', '/', 'x'])
        [⟨['/', 'x'], false⟩] :=
  ⟨Namespace.reachable_small, ⟨none, List.mem_iff_getElem?.2 ⟨3, rfl⟩⟩, ⟨12, rfl, rfl⟩⟩

end PathGlob
