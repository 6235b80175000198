import PathGlob.Proofs.Names
import PathGlob.Proofs.Namespace.CanonicalPaths
import PathGlob.Proofs.Traversal.Alignment

/-! # Listing a subtree
A directory with a `**` behind it finds the directory and all that is below it without passing a hidden
name, in pre-order. With a separator at the end the pattern finds the directories among them.

* **`Namespace.preorder`** — what is at and below a place, in pre-order.
* **`Namespace.IsTree.mem_preorder_iff`** — which entries are in it.
* **`Namespace.preorder_filter`** — it is what a `**` sweeps over, with the directory in front.
* **`Namespace.Reachable.yields_subtree`** — what the two patterns find. -/

namespace PathGlob

variable {s : Namespace} {fs : Flags} {l : Location} {d : Bool} {e : Entry}

/-! ## Pre-order -/

/-- **What is at and below a place, in pre-order**: the entry there, then child by child what is at and
below it. A child with a hidden name is left out with all that is below it. -/
def Namespace.preorder (s : Namespace) (l : Location) : List Entry :=
  match _hk : s.kind? l with
  | none => []
  | some .file => [Node.entry ⟨l, .file⟩]
  | some .directory =>
    Node.entry ⟨l, .directory⟩ ::
      ((s.childNames l).filter (!isHidden ·)).flatMap fun name => s.preorder (name :: l)
termination_by s.height + 1 - l.length
decreasing_by
  have hlen := Namespace.length_le_height (s := s) (l := l) (by rw [_hk]; rfl)
  rw [List.length_cons]
  omega

/-- Nothing is at or below a free place. -/
theorem Namespace.preorder_of_none (h : s.kind? l = none) : s.preorder l = [] := by
  rw [Namespace.preorder]
  split <;> simp_all

/-- Below a file there is nothing. -/
theorem Namespace.preorder_of_file (h : s.kind? l = some .file) :
    s.preorder l = [Node.entry ⟨l, .file⟩] := by
  rw [Namespace.preorder]
  split <;> simp_all

/-- A directory stands in front of what is below it. -/
theorem Namespace.preorder_of_directory (h : s.kind? l = some .directory) :
    s.preorder l = Node.entry ⟨l, .directory⟩ ::
      ((s.childNames l).filter (!isHidden ·)).flatMap fun name => s.preorder (name :: l) := by
  rw [Namespace.preorder]
  split <;> simp_all

/-- What is at a place that is no directory is all that is at and below it. -/
theorem Namespace.preorder_filter_of_ne (d : Bool) (h : s.kind? l ≠ some .directory) :
    (s.preorder l).filter (!d || ·.isDirectory) = (s.entryAt? d l).toList := by
  cases hk : s.kind? l with
  | none => rw [Namespace.preorder_of_none hk, Namespace.entryAt?_of_none d hk]; rfl
  | some k =>
    cases k with
    | directory => exact absurd hk h
    | file =>
      rw [Namespace.preorder_of_file hk]
      cases d <;> simp [Namespace.entryAt?, Namespace.directoryAt?, Namespace.fileAt?, hk, Node.entry]

/-- **The pre-order is the directory and the sweep over the names that are not hidden**; the directories
alone come from a sweep that looks for directories alone. -/
theorem Namespace.preorder_filter (d : Bool) (h : s.kind? l = some .directory) :
    (s.preorder l).filter (!d || ·.isDirectory) =
      Node.entry ⟨l, .directory⟩ ::
        s.sweep (!isHidden ·) (fun l' => (s.entryAt? d l').toList) (fun _ => []) l := by
  induction l using s.directoryInduction with
  | step l below =>
    rw [Namespace.preorder_of_directory h, List.filter_cons_of_pos (by simp [Node.entry]),
      Namespace.sweep, List.append_nil, List.filter_flatMap]
    refine congrArg _ (congrArg (List.flatMap · _) ?_)
    funext name
    by_cases hdir : s.kind? (name :: l) = some .directory
    · rw [if_pos hdir, below name hdir hdir, Namespace.entryAt?_of_directory d hdir]
      rfl
    · rw [if_neg hdir, List.append_nil, Namespace.preorder_filter_of_ne d hdir]

/-- **An entry is listed exactly if names that are not hidden lead to it.** -/
theorem Namespace.IsTree.mem_preorder_iff (hs : s.IsTree) (h : s.kind? l = some .directory) :
    e ∈ s.preorder l ↔
      ∃ names k, (∀ name ∈ names, isHidden name = false) ∧ s.kind? (names ++ l) = some k ∧
        e = Node.entry ⟨names ++ l, k⟩ := by
  have hsweep := Namespace.preorder_filter false h
  rw [List.filter_eq_self.2 (by simp)] at hsweep
  rw [hsweep, List.mem_cons, hs.mem_sweep_iff (fun _ => rfl) fun l' he => ?_]
  · simp only [Option.mem_toList, Namespace.entryAt?_eq_some_iff]
    constructor
    · rintro (rfl | ⟨names, -, hnames, k, hk, he, -⟩)
      · exact ⟨[], .directory, by simp, h, rfl⟩
      · exact ⟨names.reverse, k, by simpa using hnames, hk, he⟩
    · rintro ⟨names, k, hnames, hk, he⟩
      by_cases hne : names = []
      · subst hne
        rw [List.nil_append, h] at hk
        cases hk
        exact .inl he
      · refine .inr ⟨names.reverse, by simpa using hne, by simpa using hnames, k, ?_, ?_, nofun⟩
        · rwa [List.reverse_reverse]
        · rwa [List.reverse_reverse]
  · rw [Option.mem_toList] at he
    obtain ⟨k, hk, -⟩ := Namespace.entryAt?_eq_some_iff.1 he
    rw [hk]
    rfl

/-! ## The pattern -/

/-- A sweep hangs on the names alone that there are. -/
theorem Namespace.sweep_congr {accepts accepts' : Text → Bool} {found close : Location → List Entry}
    (h : ∀ l, ∀ name ∈ s.childNames l, accepts name = accepts' name) :
    s.sweep accepts found close l = s.sweep accepts' found close l := by
  induction l using s.directoryInduction with
  | step l below =>
    rw [Namespace.sweep, Namespace.sweep, List.filter_congr (h l)]
    refine congrArg (· ++ _) (congrArg (List.flatMap · _) ?_)
    funext name
    by_cases hdir : s.kind? (name :: l) = some .directory
    · rw [if_pos hdir, if_pos hdir, below name hdir]
    · rw [if_neg hdir, if_neg hdir]

/-- A `**` at the end, with or without a separator behind it, finds the directory and sweeps over what
is below it. -/
theorem Namespace.IsTree.matchSegments_doubleStar_end (hs : s.IsTree)
    (hdot : fs.has .dotMatch = false) (d : Bool) (h : s.kind? l = some .directory) :
    s.matchSegments fs d (doubleStar :: if d then [[]] else []) l false =
      (s.preorder l).filter (!d || ·.isDirectory) := by
  have hclose : ∀ last, specialNames fs doubleStar last = [] := by
    intro last
    simp [specialNames, hdot, isHidden, doubleStar]
  -- behind the `**` the entry is looked up, whether a separator follows or not
  have hrest : ∀ l' again, s.matchSegments fs d (if d then [[]] else []) l' again =
      (s.entryAt? d l').toList := by
    intro l' again
    cases d with
    | false => exact Namespace.matchSegments_nil
    | true =>
      by_cases hdir : s.kind? l' = some .directory
      · rw [if_pos rfl, Namespace.matchSegments_literal hdir rfl, Flags.plainText_nil, stepInto_nil,
          Namespace.matchSegments_nil]
      · rw [if_pos rfl, Namespace.matchSegments_cons_of_ne hdir]
        simp [Namespace.entryAt?, Namespace.directoryAt?, hdir]
  rw [Namespace.matchSegments_doubleStar h, Namespace.preorder_filter d h]
  simp only [Bool.false_eq_true, if_false, hrest, hclose, List.flatMap_nil,
    Namespace.entryAt?_of_directory d h, Option.toList_some, List.singleton_append]
  refine congrArg _ (Namespace.sweep_congr fun l' name hname => ?_)
  have hmatch := nameMatches_doubleStar hdot (hs.isName_of_mem_childNames hname).slash_not_mem
  cases hhidden : isHidden name <;> simp_all

/-- The path of a place, with a text behind it, is made of the names and the text. -/
theorem joinPath_text (h : ∀ name ∈ l, IsName name) (t : Text) :
    joinPath l.text t = '/' :: joinWith ['/'] (l.reverse ++ [t]) := by
  unfold joinPath
  cases l with
  | nil => simp [endsIn]
  | cons name l =>
    rw [endsIn_text_cons (h name List.mem_cons_self), Location.text,
      joinWith_append (by simp) (by simp)]
    simp

/-- The segments of such a pattern are the names, and those of the text. -/
theorem segmentsOf_joinPath_text (h : ∀ name ∈ l, IsName name) (t : Text) :
    segmentsOf (joinPath l.text t) = l.reverse ++ pieces '/' t := by
  rw [joinPath_text h]
  show (pieces '/' ('/' :: joinWith ['/'] (l.reverse ++ [t]))).tail = _
  rw [pieces_cons_self, List.tail_cons]
  by_cases hl : l = []
  · simp [hl]
  · rw [joinWith_append (by simpa using hl) (by simp), pieces_append_cons,
      pieces_joinWith (by simpa using hl)
        fun name hname => (h name (List.mem_reverse.1 hname)).slash_not_mem,
      joinWith_singleton]

/-- The characters of a name are in the path of the place. -/
theorem mem_text {name : Text} (h : name ∈ l) {c : Char} (hc : c ∈ name) : c ∈ l.text := by
  induction l with
  | nil => cases h
  | cons up l ih =>
    rw [Location.text_cons, List.mem_append]
    rcases List.mem_cons.1 h with rfl | h
    · exact .inr (List.mem_cons_of_mem _ hc)
    · rw [if_neg (List.ne_nil_of_mem h)]
      exact .inl (ih h)

/-- Names mean themselves if they have no drive mark. -/
theorem IsName.cleanSegment {name : Text} (h : IsName name) (hcolon : ':' ∉ name) :
    CleanSegment fs name where
  escaped := .of_not_mem h.backslash_not_mem
  slash := h.slash_not_mem
  colon := hcolon
  ne_current := (isName_iff.1 h).2.1
  ne_parent := (isName_iff.1 h).2.2.1

/-- Clean segments stay clean behind clean ones that are not empty. -/
theorem CleanSegments.append {lits segs : List Text}
    (h : ∀ lit ∈ lits, CleanSegment fs lit ∧ lit ≠ []) (hsegs : CleanSegments fs d segs) :
    CleanSegments fs d (lits ++ segs) := by
  induction lits with
  | nil => exact hsegs
  | cons lit lits ih =>
    rw [List.forall_mem_cons] at h
    exact ⟨h.1.1, fun he => absurd he h.1.2, ih h.2⟩

/-- A `**` is clean, and so is the end behind a separator if directories are wanted. -/
theorem cleanSegments_doubleStar_end (fs : Flags) (d : Bool) :
    CleanSegments fs d (doubleStar :: if d then [[]] else []) := by
  have hstar : CleanSegment fs doubleStar :=
    ⟨.of_not_mem (by decide), by decide, by decide, by decide, by decide⟩
  have hnil : CleanSegment fs [] := ⟨.nil, by decide, by decide, by decide, by decide⟩
  refine ⟨hstar, fun he => absurd he (by decide), ?_⟩
  cases d with
  | false => trivial
  | true => exact ⟨hnil, fun _ => ⟨rfl, rfl⟩, trivial⟩

/-- **Names lead from the root to their place.** -/
theorem Namespace.IsTree.matchSegments_names (hs : s.IsTree) {segs : List Text}
    (hwild : ∀ name ∈ l, fs.isWild name = false)
    (hclean : CleanSegments fs d (l.reverse ++ segs)) (hnames : ∀ name ∈ l, IsName name) :
    s.matchSegments fs d (l.reverse ++ segs) rootLocation false = s.matchSegments fs d segs l false := by
  by_cases hl : l = []
  · rw [hl]
    rfl
  · have hplain : l.reverse.map fs.plainText = l.reverse := by
      rw [List.map_congr_left (g := id), List.map_id]
      exact fun name hname =>
        Flags.plainText_of_not_mem (hnames name (List.mem_reverse.1 hname)).backslash_not_mem
    rw [hs.matchSegments_literals (by simpa using hl)
        (fun name hname => hwild name (List.mem_reverse.1 hname)) hclean s.kind?_root,
      hplain, follow_of_names fun name hname => hnames name (List.mem_reverse.1 hname),
      List.reverse_reverse, rootLocation, List.append_nil]

/-- The path of a place with a `**` behind it, and a separator if directories are wanted. -/
def Location.subtreePattern (l : Location) (directoriesOnly : Bool) : Text :=
  joinPath l.text doubleStar ++ if directoriesOnly then ['/'] else []

/-- It ends in a separator if directories are wanted. -/
theorem endsIn_subtreePattern (l : Location) (d : Bool) : endsIn '/' (l.subtreePattern d) = d := by
  unfold Location.subtreePattern
  cases d with
  | true => exact endsIn_iff.2 ⟨_, rfl⟩
  | false =>
    rw [if_neg (by simp), List.append_nil, joinPath]
    split
    · exact endsIn_append _ (by decide)
    · exact endsIn_append_cons _ _ (by decide)

/-- Its segments are the names and the `**`, with an empty one at the end if directories are wanted. -/
theorem segmentsOf_subtreePattern (h : ∀ name ∈ l, IsName name) (d : Bool) :
    segmentsOf (l.subtreePattern d) = l.reverse ++ doubleStar :: if d then [[]] else [] := by
  unfold Location.subtreePattern
  cases d with
  | false =>
    rw [if_neg (by simp), List.append_nil]
    exact segmentsOf_joinPath_text h doubleStar
  | true =>
    rw [if_pos rfl, segmentsOf_append_cons (joinPath_ne_nil _ _), segmentsOf_joinPath_text h doubleStar,
      List.append_assoc]
    rfl

/-- It has no drive mark if the path has none. -/
theorem colon_not_mem_subtreePattern (h : ':' ∉ l.text) (d : Bool) : ':' ∉ l.subtreePattern d := by
  unfold Location.subtreePattern joinPath
  cases d <;> split <;> simp [h, doubleStar]

/-- Such a pattern finds what is at and below the directory. -/
theorem Namespace.Reachable.yields_subtreePattern (hs : s.Reachable) (hdot : fs.has .dotMatch = false)
    (hdir : s.kind? l = some .directory) (hwild : ∀ c ∈ l.text, isWildcard c = false)
    (hcolon : ':' ∉ l.text) (d : Bool) :
    Yields s.provider (startJobs fs (l.subtreePattern d))
      ((s.preorder l).filter (!d || ·.isDirectory)) := by
  have htree := hs.isTree.1
  have hnames := htree.isName_of_kind? hdir
  obtain ⟨rest, hslash⟩ : ∃ rest, l.subtreePattern d = '/' :: rest := by
    rw [Location.subtreePattern, joinPath_text hnames]
    exact ⟨_, rfl⟩
  have hstart : s.startOf (l.subtreePattern d) = rootLocation := by
    rw [hslash]
    rfl
  -- names are clean segments, and so is what stands behind them
  have hclean : CleanSegments fs d (l.reverse ++ doubleStar :: if d then [[]] else []) := by
    refine .append (fun name hname => ?_) (cleanSegments_doubleStar_end fs d)
    rw [List.mem_reverse] at hname
    exact ⟨(hnames name hname).cleanSegment fun hc => hcolon (mem_text hname hc),
      (hnames name hname).ne_nil⟩
  have hyields := htree.yields_startJobs (l.subtreePattern d) (by simp [hslash])
    (ne_doubleStar_of_mem (by simp [hslash])) (colon_not_mem_subtreePattern hcolon d)
    (by rw [endsIn_subtreePattern, segmentsOf_subtreePattern hnames]; exact hclean)
  rwa [endsIn_subtreePattern, segmentsOf_subtreePattern hnames, hstart, htree.matchSegments_names
    (fun name hname => fs.isWild_of_forall fun c hc => hwild c (mem_text hname hc)) hclean hnames,
    htree.matchSegments_doubleStar_end hdot d hdir] at hyields

/-- **A directory with a `**` behind it finds its subtree.** If the path of a directory has no wildcard
and no drive mark, and hidden names are not matched by wildcards, then the path with a `**` behind it
finds the pre-order of the directory, and with a separator at the end the directories of the
pre-order. -/
theorem Namespace.Reachable.yields_subtree (hs : s.Reachable) (hdot : fs.has .dotMatch = false)
    (hdir : s.kind? l = some .directory) (hwild : ∀ c ∈ l.text, isWildcard c = false)
    (hcolon : ':' ∉ l.text) :
    Yields s.provider (startJobs fs (joinPath l.text doubleStar)) (s.preorder l) ∧
      Yields s.provider (startJobs fs (joinPath l.text doubleStar ++ ['/']))
        ((s.preorder l).filter Entry.isDirectory) := by
  have hplain := hs.yields_subtreePattern hdot hdir hwild hcolon false
  have hends := hs.yields_subtreePattern hdot hdir hwild hcolon true
  simp only [Location.subtreePattern, Bool.not_false, Bool.true_or, List.filter_true,
    Bool.false_eq_true, if_false, List.append_nil] at hplain
  exact ⟨hplain, hends⟩

/-- In the small namespace, `/**` finds the root, the directory with its file, and the file behind it. -/
theorem Namespace.small_yields_subtree :
    Yields Namespace.small.provider (startJobs Flags.standard (joinPath ['/'] doubleStar))
      [⟨['/'], true⟩, ⟨"/d".toList, true⟩, ⟨"/d/x".toList, false⟩, ⟨"/x".toList, false⟩] := by
  have hpreorder : Namespace.small.preorder [] =
      [⟨['/'], true⟩, ⟨"/d".toList, true⟩, ⟨"/d/x".toList, false⟩, ⟨"/x".toList, false⟩] := by
    have hroot : (Namespace.small.childNames []).filter (!isHidden ·) = [['d'], ['x']] := by
      decide
    have hd : (Namespace.small.childNames [['d']]).filter (!isHidden ·) = [['x']] := by decide
    rw [Namespace.preorder_of_directory rfl, hroot, List.flatMap_cons, List.flatMap_singleton,
      Namespace.preorder_of_directory (l := [['d']]) rfl, hd, List.flatMap_singleton,
      Namespace.preorder_of_file rfl, Namespace.preorder_of_file rfl]
    rfl
  rw [← hpreorder]
  exact (Namespace.reachable_small.yields_subtree (l := []) rfl rfl (by simp [isWildcard])
    (by decide)).1

end PathGlob
