import PathGlob.Proofs.Namespace.Walks

/-! # Traversal is compositional
A pattern that is put together from two finds what its second part finds in the directories that the
first part finds, in the order in which they are found and as often.

* **`Namespace.matchSegments_append`** — the law for lists of segments.
* **`Composable`** — the patterns that can be put together.
* **`Namespace.Reachable.yields_append`** — the law for walks. -/

namespace PathGlob

variable {s : Namespace} {fs : Flags} {l : Location} {d : Bool}

/-! ## Segments -/

/-- What the remaining segments find at the place of an entry. -/
def Namespace.matchAt (s : Namespace) (fs : Flags) (directoriesOnly : Bool) (segs : List Text)
    (e : Entry) : List Entry :=
  s.matchSegments fs directoriesOnly segs (s.locate e.path) false

/-- The empty segment finds the directory in which it stands, and the remaining segments go on
there. -/
theorem Namespace.IsTree.matchSegments_empty (hs : s.IsTree) {segs : List Text} (hne : segs ≠ [])
    (again : Bool) :
    (s.matchSegments fs true [[]] l again).flatMap (s.matchAt fs d segs) =
      s.matchSegments fs d segs l false := by
  by_cases hdir : s.kind? l = some .directory
  · have hnames := hs.isName_of_kind? hdir
    have hplace : s.locate (Node.entry ⟨l, .directory⟩).path = l := locateFrom_text s.cwd hnames
    rw [Namespace.matchSegments_literal hdir rfl, Flags.plainText_nil, stepInto_nil,
      Namespace.matchSegments_nil, Namespace.entryAt?_of_directory true hdir]
    simp [Namespace.matchAt, hplace]
  · rw [Namespace.matchSegments_cons_of_ne hdir]
    cases segs with
    | nil => exact absurd rfl hne
    | cons seg segs => rw [Namespace.matchSegments_cons_of_ne hdir, List.flatMap_nil]

/-- **Segments behind others go on in the directories that those find.** The induction is on the
segments in front; whether a `**` was just taken for no directory is only passed on from one `**` to
the next, so two of them must not meet where the segments are put together. -/
theorem Namespace.IsTree.matchSegments_append (hs : s.IsTree) {ps qs : List Text} (hqs : qs ≠ [])
    (hmeet : qs.head? = some doubleStar → ps.getLast? ≠ some doubleStar) (again : Bool)
    (hagain : ps = [] → again = true → qs.head? ≠ some doubleStar) :
    s.matchSegments fs d (ps ++ qs) l again =
      (s.matchSegments fs true (ps ++ [[]]) l again).flatMap (s.matchAt fs d qs) := by
  induction ps generalizing l again with
  | nil =>
    rw [List.nil_append, List.nil_append, hs.matchSegments_empty hqs]
    cases again with
    | false => rfl
    | true => exact Namespace.matchSegments_again (hagain rfl rfl) true
  | cons p ps ih =>
    have hmeet' : qs.head? = some doubleStar → ps.getLast? ≠ some doubleStar := by
      intro hq hp
      refine hmeet hq ?_
      rw [List.getLast?_cons, hp]
      rfl
    have hrest : ∀ l', s.matchSegments fs d (ps ++ qs) l' false =
        (s.matchSegments fs true (ps ++ [[]]) l' false).flatMap (s.matchAt fs d qs) :=
      fun l' => ih hmeet' false fun _ h => by cases h
    -- on both sides further segments follow, so the same names of the directory itself are tried
    have hlast : (ps ++ qs).isEmpty = (ps ++ [[]]).isEmpty := by
      rw [List.isEmpty_eq_false_iff.2 (List.append_ne_nil_of_right_ne_nil ps hqs),
        List.isEmpty_eq_false_iff.2 (List.append_ne_nil_of_right_ne_nil ps (List.cons_ne_nil _ _))]
    rw [List.cons_append, List.cons_append]
    by_cases hdir : s.kind? l = some .directory
    · cases hw : fs.isWild p with
      | false =>
        -- the segment is followed on both sides
        rw [Namespace.matchSegments_literal hdir hw, Namespace.matchSegments_literal hdir hw]
        exact hrest _
      | true =>
        by_cases hp : p = doubleStar
        · subst hp
          -- taken for no directory, the `**` passes on that it was
          have hzero : s.matchSegments fs d (ps ++ qs) l true =
              (s.matchSegments fs true (ps ++ [[]]) l true).flatMap (s.matchAt fs d qs) := by
            refine ih hmeet' true fun hps _ hq => hmeet hq ?_
            rw [hps]
            rfl
          rw [Namespace.matchSegments_doubleStar hdir, Namespace.matchSegments_doubleStar hdir,
            List.flatMap_append, Namespace.sweep_flatMap, hlast]
          simp only [hrest, List.flatMap_assoc]
          cases again with
          | true => rfl
          | false => simp only [hzero]; rfl
        · rw [Namespace.matchSegments_wild hdir hw hp, Namespace.matchSegments_wild hdir hw hp,
            List.flatMap_append, List.flatMap_assoc, List.flatMap_assoc, hlast]
          simp only [hrest]
    · rw [Namespace.matchSegments_cons_of_ne hdir, Namespace.matchSegments_cons_of_ne hdir,
        List.flatMap_nil]

/-! ## Patterns -/

/-- **Patterns `P` and `Q` that can be put together** with a separator between them: `Q` is relative,
neither has an escape, a drive mark or a reference to a directory, no segment is empty but the one in
front of an absolute `P` and the one behind a separator at the end of `Q`, and not two `**` meet. -/
structure Composable (P Q : Text) : Prop where
  /-- `P` has characters. -/
  left_ne_nil : P ≠ []
  /-- `Q` has characters. -/
  right_ne_nil : Q ≠ []
  /-- `P` does not end in a separator. -/
  left_end : endsIn '/' P = false
  /-- `Q` is relative. -/
  right_begin : beginsWith ['/'] Q = false
  /-- `Q` is not taken for an ordinary star. -/
  right_ne_doubleStar : Q ≠ doubleStar
  /-- There is no escape. -/
  backslash : '\\' ∉ P ∧ '\\' ∉ Q
  /-- There is no drive mark. -/
  colon : ':' ∉ P ∧ ':' ∉ Q
  /-- No segment of `P` is empty but a leading one. -/
  left_segments : ∀ seg ∈ (pieces '/' P).tail, seg ≠ []
  /-- No segment of `Q` is empty but a trailing one. -/
  right_segments : ∀ seg ∈ (pieces '/' Q).dropLast, seg ≠ []
  /-- No segment is a reference to a directory. -/
  references : ∀ seg ∈ pieces '/' P ++ pieces '/' Q, seg ≠ currentDirectory ∧ seg ≠ parentDirectory
  /-- Not two `**` meet. -/
  meet : ¬((pieces '/' P).getLast? = some doubleStar ∧ (pieces '/' Q).head? = some doubleStar)

variable {P Q : Text}

/-- A piece without escapes, drive marks and references means itself. -/
theorem cleanSegment_of_mem_pieces {seg : Text} (h : seg ∈ pieces '/' P) (hb : '\\' ∉ P)
    (hc : ':' ∉ P) (href : seg ≠ currentDirectory ∧ seg ≠ parentDirectory) : CleanSegment fs seg where
  escaped := .of_not_mem fun hmem => hb (mem_of_mem_pieces h hmem)
  slash := not_mem_of_mem_pieces h
  colon := fun hmem => hc (mem_of_mem_pieces h hmem)
  ne_current := href.1
  ne_parent := href.2

namespace Composable

/-- All segments mean themselves. -/
theorem cleanSegment (h : Composable P Q) (fs : Flags) :
    (∀ seg ∈ segmentsOf P, CleanSegment fs seg) ∧ ∀ seg ∈ pieces '/' Q, CleanSegment fs seg := by
  constructor
  · intro seg hseg
    have hmem := mem_pieces_of_mem_segmentsOf hseg
    exact cleanSegment_of_mem_pieces hmem h.backslash.1 h.colon.1
      (h.references seg (List.mem_append_left _ hmem))
  · intro seg hseg
    exact cleanSegment_of_mem_pieces hseg h.backslash.2 h.colon.2
      (h.references seg (List.mem_append_right _ hseg))

/-- The segments of `Q` are clean in a walk of `Q`. -/
theorem clean_right (h : Composable P Q) (fs : Flags) :
    CleanSegments fs (endsIn '/' Q) (pieces '/' Q) :=
  .of_forall (h.cleanSegment fs).2 h.right_segments (endsIn_of_getLast?_pieces h.right_ne_nil)

/-- Segments in front of clean ones are clean with them, if none of them is empty. -/
theorem clean_append (h : Composable P Q) {segs : List Text} (hsegs : CleanSegments fs d segs) :
    CleanSegments fs d (segmentsOf P ++ segs) := by
  have hne := ne_nil_of_mem_segmentsOf h.left_ne_nil h.left_segments
  have hclean := (h.cleanSegment fs).1
  generalize segmentsOf P = ps at hne hclean
  induction ps with
  | nil => exact hsegs
  | cons p ps ih =>
    exact ⟨hclean p (by simp), fun he => absurd he (hne p (by simp)),
      ih (fun x hx => hne x (by simp [hx])) fun x hx => hclean x (by simp [hx])⟩

end Composable

/-- The walk of what is put behind `P` goes through the segments of `P` first. -/
theorem Namespace.IsTree.yields_behind (hs : s.IsTree) (h : Composable P Q) {t : Text}
    (hcolon : ':' ∉ t) (hend : endsIn '/' (P ++ '/' :: t) = d)
    (hclean : CleanSegments fs d (pieces '/' t)) :
    Yields s.provider (startJobs fs (P ++ '/' :: t))
      (s.matchSegments fs d (segmentsOf P ++ pieces '/' t) (s.startOf P) false) := by
  have hsegs := segmentsOf_append_cons h.left_ne_nil t
  have hstar : P ++ '/' :: t ≠ doubleStar := ne_doubleStar_of_mem (by simp)
  have hwalk := hs.yields_startJobs (P ++ '/' :: t) (by simp) hstar (by simp [h.colon.1, hcolon])
    (by rw [hend, hsegs]; exact h.clean_append hclean)
  rwa [hend, hsegs, s.startOf_append h.left_ne_nil] at hwalk

/-- **Traversal is compositional.** The walk of `P/Q` hands out, in order, what the walk of `Q` hands
out in each of the directories that the walk of `P/` hands out. -/
theorem Namespace.Reachable.yields_append (hs : s.Reachable) (fs : Flags) (h : Composable P Q) :
    ∃ (directories : List Entry) (found : Entry → List Entry),
      Yields s.provider (startJobs fs (P ++ ['/'])) directories ∧
      (∀ e ∈ directories, e.isDirectory = true ∧
        Yields ({ s with cwd := s.locate e.path } : Namespace).provider (startJobs fs Q) (found e)) ∧
      Yields s.provider (startJobs fs (P ++ '/' :: Q)) (directories.flatMap found) := by
  have htree := hs.isTree.1
  -- the walk that hands out the directories
  have hfront : Yields s.provider (startJobs fs (P ++ ['/']))
      (s.matchSegments fs true (segmentsOf P ++ [[]]) (s.startOf P) false) := by
    have hempty : CleanSegments fs true [[]] :=
      ⟨⟨.nil, by simp, by simp, by decide, by decide⟩, fun _ => ⟨rfl, rfl⟩, trivial⟩
    exact htree.yields_behind h (by simp) (endsIn_iff.2 ⟨P, rfl⟩) hempty
  -- the walk of the whole pattern
  have hwhole : Yields s.provider (startJobs fs (P ++ '/' :: Q))
      (s.matchSegments fs (endsIn '/' Q) (segmentsOf P ++ pieces '/' Q) (s.startOf P) false) :=
    htree.yields_behind h h.colon.2 (endsIn_append_cons P '/' h.right_ne_nil) (h.clean_right fs)
  -- the walk of the second part from where an entry is
  have hback : ∀ e : Entry,
      Yields ({ s with cwd := s.locate e.path } : Namespace).provider (startJobs fs Q)
        (s.matchAt fs (endsIn '/' Q) (pieces '/' Q) e) := by
    intro e
    have hsegs := segmentsOf_of_relative h.right_begin
    have hstart : ({ s with cwd := s.locate e.path } : Namespace).startOf Q = s.locate e.path :=
      if_neg (by simp [h.right_begin])
    have hwalk := (htree.with_cwd (s.locate e.path)).yields_startJobs Q h.right_ne_nil
      h.right_ne_doubleStar h.colon.2 (by rw [hsegs]; exact h.clean_right fs)
    rwa [hsegs, hstart, Namespace.matchSegments_with_cwd] at hwalk
  refine ⟨_, s.matchAt fs (endsIn '/' Q) (pieces '/' Q), hfront, ?_, ?_⟩
  · intro e he
    refine ⟨?_, hback e⟩
    obtain ⟨-, -, -, -, hdir⟩ := Namespace.exists_of_mem_matchSegments he
    exact hdir rfl
  · have hmeet : (pieces '/' Q).head? = some doubleStar →
        (segmentsOf P).getLast? ≠ some doubleStar := by
      intro hq hp
      rw [getLast?_segmentsOf h.left_ne_nil] at hp
      exact h.meet ⟨hp, hq⟩
    rwa [htree.matchSegments_append (pieces_ne_nil '/' Q) hmeet false fun _ hf => by cases hf]
      at hwhole

/-- In the small namespace `/*/` finds the directory `/d`, in which `x` finds the file `/d/x`; this is
what `/*/x` finds. -/
theorem Namespace.small_yields_append :
    Yields Namespace.small.provider (startJobs Flags.standard ['/', '*', '/'])
        [⟨"/d".toList, true⟩] ∧
      Yields ({ Namespace.small with cwd := [['d']] } : Namespace).provider
        (startJobs Flags.standard ['x']) [⟨"/d/x".toList, false⟩] ∧
      Yields Namespace.small.provider (startJobs Flags.standard ['/', '*', '/', 'x'])
        [⟨"/d/x".toList, false⟩] := by
  have hcomposable : Composable ['/', '*'] ['x'] := by
    refine ⟨?_, ?_, ?_, ?_, ?_, ?_, ?_, ?_, ?_, ?_, ?_⟩ <;> decide
  have hup : Yields Namespace.small.provider (startJobs Flags.standard ['/', '*', '/'])
      [⟨"/d".toList, true⟩] :=
    ⟨20, List.isEmpty_iff.1 (by decide +kernel), by decide +kernel⟩
  have hdown : Yields ({ Namespace.small with cwd := [['d']] } : Namespace).provider
      (startJobs Flags.standard ['x']) [⟨"/d/x".toList, false⟩] :=
    ⟨20, List.isEmpty_iff.1 (by decide +kernel), by decide +kernel⟩
  obtain ⟨directories, found, hdirectories, hfound, hwhole⟩ :=
    Namespace.reachable_small.yields_append Flags.standard hcomposable
  obtain rfl := hdirectories.unique hup
  -- in the one directory that is found, the rest of the pattern finds the file
  have hsame : found ⟨"/d".toList, true⟩ = [⟨"/d/x".toList, false⟩] :=
    (hfound _ (List.mem_singleton_self _)).2.unique hdown
  rw [List.flatMap_singleton, hsame] at hwhole
  exact ⟨hup, hdown, hwhole⟩

end PathGlob
