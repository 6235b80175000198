import Mathlib.Data.List.Chain
import Mathlib.Data.List.Forall2
import PathGlob.Proofs.Names
import PathGlob.Proofs.Namespace.Walks

/-! # Soundness and completeness of the traversal
An entry is found exactly if the names that lead to it can be cut into runs, one for each segment of
the pattern, such that every segment takes its run.

* **`Takes`** — which runs of names a segment takes.
* **`Namespace.Leads`** — names that lead from a directory to an entry.
* **`Namespace.IsTree.mem_sweep_iff`** — a `**` leads down by any number of such names.
* **`Namespace.Reachable.yields_aligned`** — the two directions for whole walks. -/

namespace PathGlob

variable {s : Namespace} {fs : Flags} {l : Location} {d : Bool} {e : Entry}

/-! ## Runs of names -/

/-- **The runs of names that a segment takes.** A `**` takes any number of names that are not hidden,
another segment with a wildcard takes one name that it matches, and a segment without wildcards takes
the name that it spells out. -/
def Takes (fs : Flags) (seg : Text) (run : List Text) : Prop :=
  if seg = doubleStar then ∀ name ∈ run, isHidden name = false
  else if fs.isWild seg then ∃ name, run = [name] ∧ nameMatches fs seg name = true
  else run = [fs.plainText seg]

theorem takes_doubleStar_iff {run : List Text} :
    Takes fs doubleStar run ↔ ∀ name ∈ run, isHidden name = false := by simp [Takes]

theorem takes_wild_iff {seg : Text} {run : List Text} (hseg : seg ≠ doubleStar)
    (hw : fs.isWild seg = true) :
    Takes fs seg run ↔ ∃ name, run = [name] ∧ nameMatches fs seg name = true := by
  simp [Takes, hseg, hw]

theorem takes_literal_iff {seg : Text} {run : List Text} (hw : fs.isWild seg = false) :
    Takes fs seg run ↔ run = [fs.plainText seg] := by
  have hseg : seg ≠ doubleStar := by
    rintro rfl
    simp at hw
  simp [Takes, hseg, hw]

/-- **Names that lead from the directory at a place to an entry.** Every name but the last belongs to
a directory. -/
inductive Namespace.Leads (s : Namespace) : Location → List Text → Entry → Prop
  /-- The entry is at the place itself. -/
  | nil {l : Location} {k : Kind} (h : s.kind? l = some k) : Leads s l [] (Node.entry ⟨l, k⟩)
  /-- The first name leads to a child of the directory, the others from there. -/
  | cons {l : Location} {name : Text} {names : List Text} {e : Entry}
    (hdir : s.kind? l = some .directory) (hname : name ∈ s.childNames l)
    (h : Leads s (name :: l) names e) : Leads s l (name :: names) e

/-- In a tree it is enough to look where the names end. -/
theorem Namespace.IsTree.leads_iff (hs : s.IsTree) {names : List Text} :
    s.Leads l names e ↔
      ∃ k, s.kind? (names.reverse ++ l) = some k ∧ e = Node.entry ⟨names.reverse ++ l, k⟩ := by
  constructor
  · intro h
    induction h with
    | nil hk => exact ⟨_, hk, rfl⟩
    | cons _ _ _ ih => simpa using ih
  · rintro ⟨k, hk, rfl⟩
    -- on the names from the front; nothing is free above something
    induction names generalizing l with
    | nil => exact .nil hk
    | cons name names ih =>
      have hshift : (name :: names).reverse ++ l = names.reverse ++ name :: l := by simp
      rw [hshift] at hk ⊢
      have hsome : (s.kind? (name :: l)).isSome := by
        by_cases hn : names = []
        · subst hn
          exact Option.isSome_of_eq_some hk
        · by_contra hnone
          -- no directory is there, so nothing is where the names end
          have hfree := hs.kind?_eq_none_below (l := name :: l) (fun hd => hnone (by rw [hd]; rfl))
            (List.reverse_ne_nil_iff.2 hn)
          rw [hfree] at hk
          cases hk
      exact .cons (hs.parent_isDirectory hsome) (Namespace.mem_childNames_iff.2 hsome) (ih hk)

/-- Names may be followed in two parts. -/
theorem Namespace.IsTree.leads_append_iff (hs : s.IsTree) {names names' : List Text} :
    s.Leads l (names ++ names') e ↔ s.Leads (names.reverse ++ l) names' e := by
  rw [hs.leads_iff, hs.leads_iff, List.reverse_append, List.append_assoc]

/-- Where names lead on, there is something. -/
theorem Namespace.Leads.isSome {names : List Text} (h : s.Leads l names e) :
    (s.kind? l).isSome := by
  cases h with
  | nil hk => rw [hk]; rfl
  | cons hdir _ _ => rw [hdir]; rfl

/-! ## Any number of directories -/

/-- **A sweep goes down by any number of accepted names**, but at least one. -/
theorem Namespace.IsTree.mem_sweep_iff (hs : s.IsTree) {accepts : Text → Bool}
    {found close : Location → List Entry} (hclose : ∀ l, close l = [])
    (hfound : ∀ l, e ∈ found l → (s.kind? l).isSome) :
    e ∈ s.sweep accepts found close l ↔
      ∃ names ≠ [], (∀ name ∈ names, accepts name = true) ∧ e ∈ found (names.reverse ++ l) := by
  constructor
  · intro he
    induction l using s.directoryInduction with
    | step l below =>
      rw [Namespace.mem_sweep, hclose] at he
      rcases he with ⟨name, -, hname, he | ⟨hdir, he⟩⟩ | he
      · exact ⟨[name], by simp, by simpa using hname, he⟩
      · obtain ⟨names, -, hnames, he⟩ := below name hdir he
        exact ⟨name :: names, by simp, by simpa using ⟨hname, hnames⟩, by simpa using he⟩
      · cases he
  · rintro ⟨names, hne, hnames, he⟩
    induction names generalizing l with
    | nil => exact absurd rfl hne
    | cons name names ih =>
      have hshift : (name :: names).reverse ++ l = names.reverse ++ name :: l := by simp
      rw [hshift] at he
      -- something is where the names end, so that they lead there
      obtain ⟨k, hk⟩ := Option.isSome_iff_exists.1 (hfound _ he)
      have hleads : s.Leads l (name :: names) (Node.entry ⟨names.reverse ++ name :: l, k⟩) :=
        hs.leads_iff.2 ⟨k, by rw [hshift, hk], by rw [hshift]⟩
      rw [Namespace.mem_sweep]
      generalize Node.entry ⟨names.reverse ++ name :: l, k⟩ = x at hleads
      cases hleads with
      | cons _ hchild hrest =>
        refine .inl ⟨name, hchild, hnames name (by simp), ?_⟩
        cases hrest with
        | nil => exact .inl he
        | cons hdir _ _ =>
          exact .inr ⟨hdir, ih (by simp) (fun x hx => hnames x (by simp [hx])) he⟩

/-! ## Alignment -/

/-- **The names that lead to an entry can be cut into runs that the segments take.** The entry is a
directory if only directories are wanted, and if the last segment took no name. -/
def Namespace.Aligned (s : Namespace) (fs : Flags) (directoriesOnly : Bool) (segs : List Text)
    (l : Location) (e : Entry) : Prop :=
  ∃ runs, List.Forall₂ (Takes fs) segs runs ∧ s.Leads l runs.flatten e ∧
    (directoriesOnly = true ∨ runs.getLast? = some [] → e.isDirectory = true)

variable {seg : Text} {segs : List Text}

/-- Without segments the entry is at the place itself. -/
theorem Namespace.aligned_nil_iff : s.Aligned fs d [] l e ↔ s.entryAt? d l = some e := by
  rw [Namespace.entryAt?_eq_some_iff]
  constructor
  · rintro ⟨runs, hruns, hleads, hdir⟩
    obtain rfl := List.forall₂_nil_left_iff.1 hruns
    cases hleads with
    | nil hk => exact ⟨_, hk, rfl, fun hd => hdir (.inl hd)⟩
  · rintro ⟨k, hk, rfl, hdir⟩
    exact ⟨[], .nil, .nil hk, by simpa using hdir⟩

/-- The first segment takes a run that leads to where the others go on; if it takes none and no others
are left, the entry is a directory. -/
theorem Namespace.IsTree.aligned_cons_iff (hs : s.IsTree) :
    s.Aligned fs d (seg :: segs) l e ↔
      (∃ run ≠ [], Takes fs seg run ∧ s.Aligned fs d segs (run.reverse ++ l) e) ∨
      (Takes fs seg [] ∧ s.Aligned fs d segs l e ∧ (segs = [] → e.isDirectory = true)) := by
  -- unless the first run is empty and the only one, the last run is that of the others
  have hlast : ∀ (run : List Text) (runs : List (List Text)), run ≠ [] ∨ runs ≠ [] →
      ((run :: runs).getLast? = some [] ↔ runs.getLast? = some []) := by
    intro run runs hne
    cases runs with
    | nil => simpa using hne
    | cons run' runs => rw [List.getLast?_cons_cons]
  constructor
  · rintro ⟨all, hall, hleads, hdir⟩
    obtain ⟨run, runs, htakes, hruns, rfl⟩ := List.forall₂_cons_left_iff.1 hall
    rw [List.flatten_cons, hs.leads_append_iff] at hleads
    by_cases hrun : run = []
    · subst hrun
      refine .inr ⟨htakes, ⟨runs, hruns, hleads, ?_⟩, ?_⟩
      · intro h
        apply hdir
        apply h.imp_right
        intro hr
        exact (hlast [] runs (.inr (by rintro rfl; cases hr))).2 hr
      · -- no other run is left: the empty one is the last
        rintro rfl
        obtain rfl := List.forall₂_nil_left_iff.1 hruns
        exact hdir (.inr rfl)
    · rw [hlast run runs (.inl hrun)] at hdir
      exact .inl ⟨run, hrun, htakes, runs, hruns, hleads, hdir⟩
  · rintro (⟨run, hrun, htakes, runs, hruns, hleads, hdir⟩ |
      ⟨htakes, ⟨runs, hruns, hleads, hdir⟩, hnil⟩)
    · refine ⟨run :: runs, .cons htakes hruns, ?_, ?_⟩
      · rwa [List.flatten_cons, hs.leads_append_iff]
      · rwa [hlast run runs (.inl hrun)]
    · refine ⟨[] :: runs, .cons htakes hruns, hleads, ?_⟩
      cases runs with
      | nil =>
        obtain rfl := List.forall₂_nil_right_iff.1 hruns
        exact fun _ => hnil rfl
      | cons run runs => rwa [hlast [] (run :: runs) (.inr (by simp))]

/-- A segment that takes exactly one name leads to a child. -/
theorem Namespace.IsTree.aligned_cons_iff_of_single (hs : s.IsTree) {accepts : Text → Prop}
    (h : ∀ run, Takes fs seg run ↔ ∃ name, run = [name] ∧ accepts name) :
    s.Aligned fs d (seg :: segs) l e ↔ ∃ name, accepts name ∧ s.Aligned fs d segs (name :: l) e := by
  rw [hs.aligned_cons_iff]
  constructor
  · rintro (⟨run, -, htakes, haligned⟩ | ⟨htakes, -, -⟩)
    · obtain ⟨name, rfl, hname⟩ := (h run).1 htakes
      exact ⟨name, hname, haligned⟩
    · obtain ⟨name, hnil, -⟩ := (h []).1 htakes
      cases hnil
  · rintro ⟨name, hname, haligned⟩
    exact .inl ⟨[name], by simp, (h _).2 ⟨name, rfl, hname⟩, haligned⟩

/-- What is aligned lies at or below something. -/
theorem Namespace.Aligned.isSome (h : s.Aligned fs d segs l e) : (s.kind? l).isSome := by
  obtain ⟨runs, -, hleads, -⟩ := h
  exact hleads.isSome

/-- Where something is aligned with segments there is a directory: names lead on from it, or the last
segment takes none. -/
theorem Namespace.Aligned.kind?_eq (h : s.Aligned fs d segs l e) (hne : segs ≠ []) :
    s.kind? l = some .directory := by
  obtain ⟨runs, hruns, hleads, hdir⟩ := h
  generalize hnames : runs.flatten = names at hleads
  cases hleads with
  | cons hk _ _ => exact hk
  | @nil l k hk =>
    have hruns' : runs ≠ [] := by
      rintro rfl
      exact hne (List.forall₂_nil_right_iff.1 hruns)
    have hlast : runs.getLast? = some [] := by
      have hempty := List.flatten_eq_nil_iff.1 hnames _ (List.getLast_mem hruns')
      rw [List.getLast?_eq_some_getLast hruns', hempty]
    have hentry := hdir (.inr hlast)
    cases k with
    | directory => exact hk
    | file => cases hentry

/-- What is found lies at or below something. -/
theorem Namespace.isSome_of_mem_matchSegments (h : e ∈ s.matchSegments fs d segs l false) :
    (s.kind? l).isSome := by
  cases hk : s.kind? l with
  | none => rw [Namespace.matchSegments_of_none hk] at h; cases h
  | some k => rfl

/-- A name at which something is found is that of a child. -/
theorem Namespace.IsTree.exists_child_iff (hs : s.IsTree) (accepts : Text → Prop)
    (found : Location → Prop) (hfound : ∀ l, found l → (s.kind? l).isSome) :
    (s.kind? l = some .directory ∧ ∃ name ∈ s.childNames l, accepts name ∧ found (name :: l)) ↔
      ∃ name, accepts name ∧ found (name :: l) := by
  constructor
  · rintro ⟨-, name, -, hname⟩
    exact ⟨name, hname⟩
  · rintro ⟨name, hname, hf⟩
    have hsome := hfound _ hf
    exact ⟨hs.parent_isDirectory hsome, name, Namespace.mem_childNames_iff.2 hsome, hname, hf⟩

/-- The induction step for a segment that takes one name. -/
theorem Namespace.IsTree.mem_matchSegments_wild_iff (hs : s.IsTree) {parts : List Text}
    (hw : fs.isWild seg = true) (hseg : seg ≠ doubleStar)
    (href : ∀ last, specialNames fs seg last = [])
    (ih : ∀ l, e ∈ s.matchSegments fs d segs l false ↔ s.Aligned fs d parts l e) :
    e ∈ s.matchSegments fs d (seg :: segs) l false ↔ s.Aligned fs d (seg :: parts) l e := by
  rw [hs.aligned_cons_iff_of_single fun run => takes_wild_iff hseg hw,
    ← hs.exists_child_iff _ (s.Aligned fs d parts · e) fun l h => h.isSome]
  by_cases hdir : s.kind? l = some .directory
  · rw [Namespace.matchSegments_wild hdir hw hseg, href, List.flatMap_nil, List.append_nil,
      List.mem_flatMap]
    simp only [List.mem_filter, ih, hdir, true_and, and_assoc]
  · rw [Namespace.matchSegments_cons_of_ne hdir]
    simp [hdir]

/-- The induction step for a segment that spells out a name. -/
theorem Namespace.IsTree.mem_matchSegments_literal_iff (hs : s.IsTree) {parts : List Text}
    (hclean : CleanSegment fs seg) (hne : seg ≠ []) (hw : fs.isWild seg = false)
    (ih : ∀ l, e ∈ s.matchSegments fs d segs l false ↔ s.Aligned fs d parts l e) :
    e ∈ s.matchSegments fs d (seg :: segs) l false ↔ s.Aligned fs d (seg :: parts) l e := by
  have htakes : ∀ run, Takes fs seg run ↔ ∃ name, run = [name] ∧ name = fs.plainText seg := by
    intro run
    rw [takes_literal_iff hw]
    simp
  by_cases hdir : s.kind? l = some .directory
  · rw [Namespace.matchSegments_literal hdir hw, stepInto_of_isName (hclean.isName hne), ih,
      hs.aligned_cons_iff_of_single htakes]
    simp
  · rw [Namespace.matchSegments_cons_of_ne hdir]
    simp only [List.not_mem_nil, false_iff]
    exact fun haligned => hdir (haligned.kind?_eq (by simp))

/-- The induction step for a `**`, which no other one follows. -/
theorem Namespace.IsTree.mem_matchSegments_doubleStar_iff (hs : s.IsTree)
    (hdot : fs.has .dotMatch = false)
    (href : ∀ last, specialNames fs doubleStar last = []) (hnext : segs.head? ≠ some doubleStar)
    (ih : ∀ l, e ∈ s.matchSegments fs d segs l false ↔
      s.Aligned fs d (segs.filter (· ≠ [])) l e) :
    e ∈ s.matchSegments fs d (doubleStar :: segs) l false ↔
      s.Aligned fs d (doubleStar :: segs.filter (· ≠ [])) l e := by
  by_cases hdir : s.kind? l = some .directory
  swap
  · rw [Namespace.matchSegments_cons_of_ne hdir]
    simp only [List.not_mem_nil, false_iff]
    exact fun haligned => hdir (haligned.kind?_eq (by simp))
  have hzero : e ∈ s.matchSegments fs d segs l false ↔
      s.Aligned fs d (segs.filter (· ≠ [])) l e ∧
        (segs.filter (· ≠ []) = [] → e.isDirectory = true) := by
    rw [ih]
    refine ⟨fun h => ⟨h, ?_⟩, And.left⟩
    intro hnil
    -- what is aligned without segments is the directory itself
    rw [hnil, Namespace.aligned_nil_iff, Namespace.entryAt?_of_directory d hdir] at h
    cases h
    rfl
  have hmore : (∃ names ≠ [], (∀ name ∈ names, nameMatches fs doubleStar name = true) ∧
        e ∈ s.matchSegments fs d segs (names.reverse ++ l) false) ↔
      ∃ run ≠ [], Takes fs doubleStar run ∧
        s.Aligned fs d (segs.filter (· ≠ [])) (run.reverse ++ l) e := by
    apply exists_congr
    intro run
    apply and_congr_right
    intro _
    rw [ih, takes_doubleStar_iff]
    apply and_congr_left
    intro haligned
    apply forall₂_congr
    intro name hname
    have hproper := hs.isName_of_isSome haligned.isSome name (by simp [hname])
    exact nameMatches_doubleStar hdot hproper.slash_not_mem
  have htakes : Takes fs doubleStar [] := takes_doubleStar_iff.2 (by simp)
  rw [hs.aligned_cons_iff, ← hmore, Namespace.matchSegments_doubleStar hdir,
    Namespace.matchSegments_again hnext, List.mem_append,
    hs.mem_sweep_iff (fun l => by rw [href]; rfl) fun l h => Namespace.isSome_of_mem_matchSegments h]
  simp only [Bool.false_eq_true, if_false, hzero, htakes, true_and]
  exact or_comm

/-- **Segments find what is aligned with them**, if none of them means the directory itself or its
parent. The induction is on the segments; a `**` is never followed by another one, so that it may
always be taken for no directory. -/
theorem Namespace.IsTree.mem_matchSegments_iff (hs : s.IsTree) (hdot : fs.has .dotMatch = false)
    (hclean : CleanSegments fs d segs)
    (href : ∀ seg ∈ segs, ∀ last, specialNames fs seg last = [])
    (hstars : segs.IsChain fun a b => ¬(a = doubleStar ∧ b = doubleStar)) :
    e ∈ s.matchSegments fs d segs l false ↔ s.Aligned fs d (segs.filter (· ≠ [])) l e := by
  induction segs generalizing l with
  | nil =>
    rw [Namespace.matchSegments_nil, Option.mem_toList, List.filter_nil, Namespace.aligned_nil_iff]
  | cons seg rest ih =>
    have ih' := fun l => ih (l := l) hclean.2.2 (fun x hx => href x (by simp [hx])) hstars.tail
    by_cases hne : seg = []
    · -- an empty segment stands for the directory, and nothing follows
      obtain ⟨rfl, rfl⟩ := hclean.2.1 hne
      subst hne
      rw [List.filter_cons_of_neg (by simp), List.filter_nil, Namespace.aligned_nil_iff]
      by_cases hdir : s.kind? l = some .directory
      · rw [Namespace.matchSegments_literal hdir rfl, Flags.plainText_nil, stepInto_nil,
          Namespace.matchSegments_nil, Option.mem_toList]
      · rw [Namespace.matchSegments_cons_of_ne hdir]
        simp [Namespace.entryAt?, Namespace.directoryAt?, hdir]
    · rw [List.filter_cons_of_pos (by simpa using hne)]
      cases hw : fs.isWild seg with
      | false => exact hs.mem_matchSegments_literal_iff hclean.1 hne hw ih'
      | true =>
        by_cases hseg : seg = doubleStar
        · subst hseg
          refine hs.mem_matchSegments_doubleStar_iff hdot (href _ (by simp)) ?_ ih'
          intro hhead
          rcases (List.isChain_cons_iff _ _ _).1 hstars with rfl | ⟨x, xs, hx, -, rfl⟩
          · cases hhead
          · exact hx ⟨rfl, by simpa using hhead⟩
        · exact hs.mem_matchSegments_wild_iff hw hseg (href seg (by simp)) ih'

/-! ## Patterns -/

/-- **Patterns whose segments take runs of names**: no segment is empty but a leading or a trailing
one, no two neighbours are both `**`, and none matches the name that a directory has for itself or for
its parent. There is no drive mark, and every backslash is that of an escape. -/
structure Alignable (fs : Flags) (pattern : Text) : Prop where
  /-- There is a pattern. -/
  ne_nil : pattern ≠ []
  /-- It is not taken for an ordinary star. -/
  ne_doubleStar : pattern ≠ doubleStar
  /-- There is no drive mark. -/
  colon : ':' ∉ pattern
  /-- Every backslash stands directly before a character with a meaning in a segment. -/
  escaped : WellEscaped fs.escapes pattern
  /-- No segment is empty but a leading or a trailing one. -/
  inner : ∀ seg ∈ (pieces '/' pattern).tail.dropLast, seg ≠ []
  /-- No two neighbours are both `**`. -/
  stars : (pieces '/' pattern).IsChain fun a b => ¬(a = doubleStar ∧ b = doubleStar)
  /-- No segment matches a reference to a directory. -/
  references : ∀ seg ∈ pieces '/' pattern, nameMatches fs seg currentDirectory = false ∧
    nameMatches fs seg parentDirectory = false

namespace Alignable

variable {pattern : Text}

/-- A segment is never tried on the directory itself and its parent. -/
theorem specialNames_eq_nil (h : Alignable fs pattern) {seg : Text} (hseg : seg ∈ pieces '/' pattern)
    (last : Bool) : specialNames fs seg last = [] := by
  obtain ⟨hcurrent, hparent⟩ := h.references seg hseg
  simp [specialNames, hcurrent, hparent]

/-- All segments mean themselves. -/
theorem cleanSegment (h : Alignable fs pattern) {seg : Text} (hseg : seg ∈ pieces '/' pattern) :
    CleanSegment fs seg where
  escaped := h.escaped.of_mem_pieces hseg
  slash := not_mem_of_mem_pieces hseg
  colon := fun hmem => h.colon (mem_of_mem_pieces hseg hmem)
  ne_current := by
    rintro rfl
    have hmatch := (nameMatches_references fs).1
    rw [(h.references _ hseg).1] at hmatch
    cases hmatch
  ne_parent := by
    rintro rfl
    have hmatch := (nameMatches_references fs).2
    rw [(h.references _ hseg).2] at hmatch
    cases hmatch

/-- The segments are clean in the walk of the pattern. -/
theorem clean (h : Alignable fs pattern) :
    CleanSegments fs (endsIn '/' pattern) (segmentsOf pattern) := by
  refine .of_forall (fun seg hseg => h.cleanSegment (mem_pieces_of_mem_segmentsOf hseg))
    (ne_nil_of_mem_dropLast_segmentsOf h.ne_nil h.inner) ?_
  rw [getLast?_segmentsOf h.ne_nil]
  exact endsIn_of_getLast?_pieces h.ne_nil

end Alignable

/-- **Soundness and completeness of the traversal.** A walk ends, and it hands out exactly the entries
to which names lead that can be cut into runs which the segments of the pattern take. -/
theorem Namespace.Reachable.yields_aligned (hs : s.Reachable) (hdot : fs.has .dotMatch = false)
    {pattern : Text} (h : Alignable fs pattern) :
    ∃ es, Yields s.provider (startJobs fs pattern) es ∧ ∀ e, e ∈ es ↔
      s.Aligned fs (endsIn '/' pattern) ((pieces '/' pattern).filter (· ≠ []))
        (s.startOf pattern) e := by
  have htree := hs.isTree.1
  -- the piece in front of a leading separator is empty
  have hparts : (pieces '/' pattern).filter (· ≠ []) = (segmentsOf pattern).filter (· ≠ []) := by
    rcases segmentsOf_cases h.ne_nil with hcut | ⟨p, ps, -, hcut, hsegs⟩
    · rw [hcut, List.filter_cons_of_neg (by simp)]
    · rw [hcut, hsegs]
  have hstars : (segmentsOf pattern).IsChain fun a b => ¬(a = doubleStar ∧ b = doubleStar) := by
    have hchain := h.stars
    rcases segmentsOf_cases h.ne_nil with hcut | ⟨p, ps, -, hcut, hsegs⟩
    · rw [hcut] at hchain
      exact hchain.tail
    · rwa [hcut, ← hsegs] at hchain
  refine ⟨_, htree.yields_startJobs pattern h.ne_nil h.ne_doubleStar h.colon h.clean, ?_⟩
  intro e
  rw [hparts]
  exact htree.mem_matchSegments_iff hdot h.clean
    (fun seg hseg last => h.specialNames_eq_nil (mem_pieces_of_mem_segmentsOf hseg) last) hstars

/-- In the small namespace, `**/x` finds the one file that lies below the current directory and is
called `x`. -/
theorem Namespace.small_yields_aligned :
    Yields Namespace.small.provider (startJobs Flags.standard ['*', '*', '/', 'x'])
        [⟨"/d/x".toList, false⟩] ∧
      ∀ e, e ∈ [(⟨"/d/x".toList, false⟩ : Entry)] ↔
        Namespace.small.Aligned Flags.standard false [doubleStar, ['x']] [['d']] e := by
  have halignable : Alignable Flags.standard ['*', '*', '/', 'x'] :=
    ⟨by decide, by decide, by decide, .of_not_mem (by decide), by decide, by decide, by decide⟩
  have hfound : Yields Namespace.small.provider (startJobs Flags.standard ['*', '*', '/', 'x'])
      [⟨"/d/x".toList, false⟩] :=
    ⟨30, List.isEmpty_iff.1 (by decide +kernel), by decide +kernel⟩
  obtain ⟨es, hes, hmem⟩ := Namespace.reachable_small.yields_aligned rfl halignable
  obtain rfl := hes.unique hfound
  exact ⟨hes, hmem⟩

end PathGlob
