import PathGlob.Proofs.Namespace.Tree
import PathGlob.Proofs.Parts

/-! # Matches of a list of segments
What a pattern finds in a namespace, told by recursion on its segments and on places instead of by
jobs and paths.

* **`Namespace.matchSegments`** — the entries that a list of segments finds from a place, in order.
* **`Namespace.sweep`** — the entries that a `**` finds at and below the names of a directory.
* **`Namespace.matchSegments_literals`** — segments without wildcards may be taken together. -/

namespace PathGlob

variable {s : Namespace} {fs : Flags} {l : Location}

/-! ## Entries -/

/-- The entry at a place: the directory there, otherwise the file there unless only directories are
wanted. -/
def Namespace.entryAt? (s : Namespace) (directoriesOnly : Bool) (l : Location) : Option Entry :=
  (s.directoryAt? l).or (if directoriesOnly then none else s.fileAt? l)

/-- The entry at a place is that of its node. -/
theorem Namespace.entryAt?_eq_some_iff {d : Bool} {e : Entry} :
    s.entryAt? d l = some e ↔
      ∃ k, s.kind? l = some k ∧ e = Node.entry ⟨l, k⟩ ∧ (d = true → e.isDirectory = true) := by
  unfold Namespace.entryAt? Namespace.directoryAt? Namespace.fileAt?
  rcases hk : s.kind? l with _ | _ | _
  · simp
  · constructor
    · intro h
      obtain rfl : Node.entry ⟨l, .directory⟩ = e := by simpa using h
      exact ⟨_, rfl, rfl, fun _ => rfl⟩
    · rintro ⟨k, hk, rfl, -⟩
      obtain rfl : Kind.directory = k := by simpa using hk
      simp
  · constructor
    · intro h
      cases d with
      | false =>
        obtain rfl : Node.entry ⟨l, .file⟩ = e := by simpa using h
        exact ⟨_, rfl, rfl, fun h => absurd h (by simp)⟩
      | true => simp at h
    · rintro ⟨k, hk, rfl, hd⟩
      obtain rfl : Kind.file = k := by simpa using hk
      have hfalse : d = false := by simpa [Node.entry] using hd
      simp [hfalse]

/-- At a directory the entry is the directory. -/
theorem Namespace.entryAt?_of_directory (d : Bool) (h : s.kind? l = some .directory) :
    s.entryAt? d l = some (Node.entry ⟨l, .directory⟩) :=
  Namespace.entryAt?_eq_some_iff.2 ⟨_, h, rfl, fun _ => rfl⟩

/-- At a free place there is no entry. -/
theorem Namespace.entryAt?_of_none (d : Bool) (h : s.kind? l = none) : s.entryAt? d l = none := by
  simp [Namespace.entryAt?, Namespace.directoryAt?, Namespace.fileAt?, h]

/-! ## Any number of directories -/

/-- **What a `**` finds below a place**, if `found` gives what the segments behind it find: for every
accepted name of the directory what they find there, then what the `**` finds below it, and at the
end of each directory what `close` gives for it. -/
def Namespace.sweep (s : Namespace) (accepts : Text → Bool) (found close : Location → List Entry)
    (l : Location) : List Entry :=
  ((s.childNames l).filter accepts).flatMap (fun name =>
    found (name :: l) ++
      if s.kind? (name :: l) = some .directory then s.sweep accepts found close (name :: l) else [])
    ++ close l
termination_by s.height - l.length
decreasing_by
  rename_i hdir
  exact Namespace.height_sub_length_lt hdir

/-- The sweep of a directory, with the sweeps of the directories below it. -/
theorem Namespace.mem_sweep {accepts : Text → Bool} {found close : Location → List Entry}
    {e : Entry} : e ∈ s.sweep accepts found close l ↔
      (∃ name ∈ s.childNames l, accepts name = true ∧ (e ∈ found (name :: l) ∨
        s.kind? (name :: l) = some .directory ∧ e ∈ s.sweep accepts found close (name :: l))) ∨
      e ∈ close l := by
  rw [Namespace.sweep, List.mem_append, List.mem_flatMap]
  apply or_congr_left
  apply exists_congr
  intro name
  rw [List.mem_filter, List.mem_append, and_assoc]
  split <;> simp [*]

/-- **Sweeps are followed by induction on the directories.** What holds of the entries that `found`
and `close` give holds of all entries of the sweep. -/
theorem Namespace.forall_mem_sweep {accepts : Text → Bool} {found close : Location → List Entry}
    {q : Entry → Prop} (hfound : ∀ l, ∀ e ∈ found l, q e) (hclose : ∀ l, ∀ e ∈ close l, q e) :
    ∀ e ∈ s.sweep accepts found close l, q e := by
  induction l using s.directoryInduction with
  | step l below =>
    intro e he
    rcases Namespace.mem_sweep.1 he with ⟨name, -, -, he | ⟨hdir, he⟩⟩ | he
    · exact hfound _ e he
    · exact below name hdir e he
    · exact hclose _ e he

/-- Going on from what a sweep finds is the same as going on in the sweep. -/
theorem Namespace.sweep_flatMap (s : Namespace) (accepts : Text → Bool)
    (found close : Location → List Entry) (next : Entry → List Entry) (l : Location) :
    (s.sweep accepts found close l).flatMap next =
      s.sweep accepts (fun l' => (found l').flatMap next) (fun l' => (close l').flatMap next) l := by
  induction l using s.directoryInduction with
  | step l below =>
    rw [Namespace.sweep, Namespace.sweep, List.flatMap_append, List.flatMap_assoc]
    congr 1
    refine congrArg (List.flatMap · _) ?_
    funext name
    rw [List.flatMap_append]
    congr 1
    by_cases hdir : s.kind? (name :: l) = some .directory
    · rw [if_pos hdir, if_pos hdir]
      exact below name hdir
    · rw [if_neg hdir, if_neg hdir, List.flatMap_nil]

/-- **The names of the directory itself and its parent** that a segment is tried on and matches. -/
def specialNames (fs : Flags) (segment : Text) (last : Bool) : List Text :=
  if isHidden segment || (last && fs.has .dotMatch) then
    [currentDirectory, parentDirectory].filter (nameMatches fs segment)
  else []

/-- They are names of a directory itself or its parent. -/
theorem mem_references_of_mem_specialNames {segment name : Text} {last : Bool}
    (h : name ∈ specialNames fs segment last) : name ∈ [currentDirectory, parentDirectory] := by
  unfold specialNames at h
  split at h
  · exact (List.mem_filter.1 h).1
  · cases h

/-- The jobs for the directory itself and its parent go on at these names. -/
theorem specialJobs_eq {ε : Type} (sc : Scope) (base pattern : Text) :
    (specialJobs sc base pattern : List (Job ε)) =
      (specialNames sc.flags (Part.next sc.flags.escapes pattern).text
        (Part.next sc.flags.escapes pattern).rest?.isNone).map fun name =>
          continueAt sc (joinPath base name) (Part.next sc.flags.escapes pattern).rest? := by
  unfold specialJobs specialNames triesSpecials
  generalize Part.next sc.flags.escapes pattern = part
  simp only
  split
  · rfl
  · rfl

/-! ## Segments -/

/-- **The entries that a list of segments finds from a place**, in order. `again` says that a `**` at
the front is not taken for no directory once more. -/
def Namespace.matchSegments (s : Namespace) (fs : Flags) (directoriesOnly : Bool) :
    List Text → Location → Bool → List Entry
  | [], l, _ => (s.entryAt? directoriesOnly l).toList
  | seg :: rest, l, again =>
    if s.kind? l = some .directory then
      if fs.isWild seg then
        let close := fun l' => (specialNames fs seg rest.isEmpty).flatMap fun name =>
          s.matchSegments fs directoriesOnly rest (stepInto l' name) false
        let found := fun l' => s.matchSegments fs directoriesOnly rest l' false
        if seg = doubleStar then
          (if again then [] else s.matchSegments fs directoriesOnly rest l true)
            ++ s.sweep (nameMatches fs seg) found close l
        else ((s.childNames l).filter (nameMatches fs seg)).flatMap (fun name => found (name :: l))
          ++ close l
      else s.matchSegments fs directoriesOnly rest (stepInto l (fs.plainText seg)) false
    else []

variable {d : Bool} {seg : Text} {rest : List Text} {again : Bool}

/-- No segments are left: the entry at the place. -/
@[simp] theorem Namespace.matchSegments_nil :
    s.matchSegments fs d [] l again = (s.entryAt? d l).toList := by
  rw [Namespace.matchSegments]

/-- Where there is no directory, segments find nothing. -/
theorem Namespace.matchSegments_cons_of_ne (h : s.kind? l ≠ some .directory) :
    s.matchSegments fs d (seg :: rest) l again = [] := by
  rw [Namespace.matchSegments, if_neg h]

/-- A segment without a wildcard is followed. -/
theorem Namespace.matchSegments_literal (h : s.kind? l = some .directory)
    (hw : fs.isWild seg = false) :
    s.matchSegments fs d (seg :: rest) l again =
      s.matchSegments fs d rest (stepInto l (fs.plainText seg)) false := by
  rw [Namespace.matchSegments, if_pos h, hw, if_neg (by simp)]

/-- A segment with a wildcard is tried on the names in the directory. -/
theorem Namespace.matchSegments_wild (h : s.kind? l = some .directory) (hw : fs.isWild seg = true)
    (hseg : seg ≠ doubleStar) :
    s.matchSegments fs d (seg :: rest) l again =
      ((s.childNames l).filter (nameMatches fs seg)).flatMap
          (fun name => s.matchSegments fs d rest (name :: l) false) ++
        (specialNames fs seg rest.isEmpty).flatMap fun name =>
          s.matchSegments fs d rest (stepInto l name) false := by
  rw [Namespace.matchSegments, if_pos h, if_pos hw]
  simp only [hseg, if_false]

/-- A `**` is first taken for no directory, then it sweeps through the names in the directory. -/
theorem Namespace.matchSegments_doubleStar (h : s.kind? l = some .directory) :
    s.matchSegments fs d (doubleStar :: rest) l again =
      (if again then [] else s.matchSegments fs d rest l true) ++
        s.sweep (nameMatches fs doubleStar) (fun l' => s.matchSegments fs d rest l' false)
          (fun l' => (specialNames fs doubleStar rest.isEmpty).flatMap fun name =>
            s.matchSegments fs d rest (stepInto l' name) false) l := by
  rw [Namespace.matchSegments, if_pos h, if_pos (Flags.isWild_doubleStar fs)]
  simp only [if_true]

/-- At a free place nothing is found. -/
theorem Namespace.matchSegments_of_none (h : s.kind? l = none) (segs : List Text) :
    s.matchSegments fs d segs l again = [] := by
  cases segs with
  | nil => rw [Namespace.matchSegments_nil, Namespace.entryAt?_of_none d h]; rfl
  | cons seg rest => exact Namespace.matchSegments_cons_of_ne (by rw [h]; simp)

/-- Whether a `**` was just taken for no directory matters to a further `**` alone. -/
theorem Namespace.matchSegments_again {segs : List Text} (h : segs.head? ≠ some doubleStar)
    (again : Bool) : s.matchSegments fs d segs l again = s.matchSegments fs d segs l false := by
  cases segs with
  | nil => rw [Namespace.matchSegments_nil, Namespace.matchSegments_nil]
  | cons seg rest =>
    have hseg : seg ≠ doubleStar := by simpa using h
    unfold Namespace.matchSegments
    simp only [hseg, if_false]

/-- **What is found is there**, and it is a directory if only directories are wanted. -/
theorem Namespace.exists_of_mem_matchSegments {segs : List Text} {e : Entry}
    (h : e ∈ s.matchSegments fs d segs l again) :
    ∃ l' k, s.kind? l' = some k ∧ e = Node.entry ⟨l', k⟩ ∧ (d = true → e.isDirectory = true) := by
  induction segs generalizing l again e with
  | nil =>
    rw [Namespace.matchSegments_nil, Option.mem_toList] at h
    obtain ⟨k, hk, he, hd⟩ := Namespace.entryAt?_eq_some_iff.1 h
    exact ⟨l, k, hk, he, hd⟩
  | cons seg rest ih =>
    by_cases hdir : s.kind? l = some .directory
    · cases hw : fs.isWild seg with
      | false =>
        rw [Namespace.matchSegments_literal hdir hw] at h
        exact ih h
      | true =>
        by_cases hseg : seg = doubleStar
        · subst hseg
          rw [Namespace.matchSegments_doubleStar hdir, List.mem_append] at h
          rcases h with h | h
          · cases again with
            | true => cases h
            | false => exact ih h
          · -- both what is found on the way down and what closes a directory comes from the rest
            apply Namespace.forall_mem_sweep (fun _ e he => ih he) _ e h
            intro _ e he
            obtain ⟨name, -, he⟩ := List.mem_flatMap.1 he
            exact ih he
        · rw [Namespace.matchSegments_wild hdir hw hseg, List.mem_append] at h
          rcases h with h | h
          · obtain ⟨name, -, he⟩ := List.mem_flatMap.1 h
            exact ih he
          · obtain ⟨name, -, he⟩ := List.mem_flatMap.1 h
            exact ih he
    · rw [Namespace.matchSegments_cons_of_ne hdir] at h
      cases h

/-! ## The current directory -/

/-- The current directory has no part in a sweep. -/
theorem Namespace.sweep_with_cwd (s : Namespace) (cwd : Location) (accepts : Text → Bool)
    (found close : Location → List Entry) (l : Location) :
    ({ s with cwd := cwd } : Namespace).sweep accepts found close l =
      s.sweep accepts found close l := by
  induction l using s.directoryInduction with
  | step l below =>
    rw [Namespace.sweep, Namespace.sweep]
    congr 1
    refine congrArg (List.flatMap · _) ?_
    funext name
    rw [Namespace.kind?_with_cwd]
    congr 1
    by_cases hdir : s.kind? (name :: l) = some .directory
    · rw [if_pos hdir, if_pos hdir]
      exact below name hdir
    · rw [if_neg hdir, if_neg hdir]

/-- **What segments find from a place does not hang on the current directory.** -/
theorem Namespace.matchSegments_with_cwd (s : Namespace) (cwd : Location) (segs : List Text)
    (l : Location) (again : Bool) :
    ({ s with cwd := cwd } : Namespace).matchSegments fs d segs l again =
      s.matchSegments fs d segs l again := by
  induction segs generalizing l again with
  | nil => rw [Namespace.matchSegments_nil, Namespace.matchSegments_nil]; rfl
  | cons seg rest ih =>
    rw [Namespace.matchSegments, Namespace.matchSegments]
    simp only [ih, Namespace.sweep_with_cwd, Namespace.kind?_with_cwd]
    rfl

/-! ## Clean segments -/

/-- **A segment that means itself**: it is well-escaped, has no separator and is no reference to a
directory. -/
structure CleanSegment (fs : Flags) (seg : Text) : Prop where
  /-- Every backslash is that of an escape. -/
  escaped : WellEscaped fs.escapes seg
  /-- It has no slash. -/
  slash : '/' ∉ seg
  /-- It has no drive mark. -/
  colon : ':' ∉ seg
  /-- It is not the name that a directory has for itself. -/
  ne_current : seg ≠ currentDirectory
  /-- It is not the name that a directory has for its parent. -/
  ne_parent : seg ≠ parentDirectory

/-- **Segments that mean themselves**, of which at most the last one is empty, and this only if
directories alone are wanted. -/
def CleanSegments (fs : Flags) (directoriesOnly : Bool) : List Text → Prop
  | [] => True
  | seg :: rest => CleanSegment fs seg ∧ (seg = [] → rest = [] ∧ directoriesOnly = true) ∧
    CleanSegments fs directoriesOnly rest

/-- Segments are clean if each of them is, and only the last one may be empty. -/
theorem CleanSegments.of_forall {segs : List Text} (h : ∀ seg ∈ segs, CleanSegment fs seg)
    (hne : ∀ seg ∈ segs.dropLast, seg ≠ []) (hlast : segs.getLast? = some [] → d = true) :
    CleanSegments fs d segs := by
  induction segs with
  | nil => trivial
  | cons seg rest ih =>
    cases rest with
    | nil => exact ⟨h seg (by simp), fun he => ⟨rfl, hlast (by rw [he]; rfl)⟩, trivial⟩
    | cons seg' rest =>
      rw [List.dropLast_cons_cons] at hne
      rw [List.getLast?_cons_cons] at hlast
      exact ⟨h seg (by simp), fun he => absurd he (hne seg (by simp)),
        ih (fun x hx => h x (by simp [hx])) (fun x hx => hne x (by simp [hx])) hlast⟩

/-- Segments stay clean if those in front are left out. -/
theorem CleanSegments.of_append {lits segs : List Text} (h : CleanSegments fs d (lits ++ segs)) :
    CleanSegments fs d segs := by
  induction lits with
  | nil => exact h
  | cons lit lits ih => exact ih h.2.2

theorem CleanSegments.mem {segs : List Text} (h : CleanSegments fs d segs) (hseg : seg ∈ segs) :
    CleanSegment fs seg := by
  induction segs with
  | nil => simp at hseg
  | cons x segs ih =>
    rcases List.mem_cons.1 hseg with rfl | hseg
    · exact h.1
    · exact ih h.2.2 hseg

/-- A clean segment with a wildcard is one that a pattern can have. -/
theorem CleanSegment.wildSegment (h : CleanSegment fs seg) (hw : fs.isWild seg = true) :
    WildSegment fs seg := h.escaped.wildSegment hw h.slash h.colon

/-- **A clean segment that is not empty names a child.** -/
theorem CleanSegment.isName (h : CleanSegment fs seg) (hne : seg ≠ []) :
    IsName (fs.plainText seg) := by
  -- a text without special characters is spelled in one way only
  have heq : ∀ u : Text, (∀ c ∈ u, isSegmentSpecial c = false) → seg ≠ u →
      fs.plainText seg ≠ u := fun u hu hsu he => hsu (h.escaped.eq_of_plainText_eq hu he)
  have hdot : isSegmentSpecial '.' = false := rfl
  refine isName_iff.2 ⟨?_, ?_, ?_, ?_, h.escaped.not_mem_plainText⟩
  · exact heq [] (by simp) hne
  · exact heq currentDirectory (by simp [currentDirectory, hdot]) h.ne_current
  · exact heq parentDirectory (by simp [parentDirectory, hdot]) h.ne_parent
  · exact fun hs => h.slash (mem_of_mem_plainText hs)

/-- At and below what is no directory, clean segments without wildcards lead to nothing. -/
theorem Namespace.IsTree.matchSegments_follow_of_ne (hs : s.IsTree) {lits : List Text}
    (hne : lits ≠ []) (hclean : CleanSegments fs d (lits ++ rest))
    (h : s.kind? l ≠ some .directory) :
    s.matchSegments fs d rest (follow l (lits.map fs.plainText)) false = [] := by
  induction lits generalizing l with
  | nil => exact absurd rfl hne
  | cons lit lits ih =>
    rw [List.map_cons, follow_cons]
    by_cases hlit : lit = []
    · -- an empty segment is the last one, and only directories are wanted
      obtain ⟨hnil, rfl⟩ := hclean.2.1 hlit
      obtain ⟨rfl, rfl⟩ := List.append_eq_nil_iff.1 hnil
      subst hlit
      rw [Flags.plainText_nil, stepInto_nil, List.map_nil, follow_nil, Namespace.matchSegments_nil]
      simp [Namespace.entryAt?, Namespace.directoryAt?, h]
    · -- nothing is below what is no directory, so the rest starts from a free place
      have hnone : s.kind? (fs.plainText lit :: l) = none :=
        hs.kind?_eq_none_below h (List.cons_ne_nil (fs.plainText lit) [])
      rw [stepInto_of_isName (hclean.1.isName hlit)]
      by_cases hlits : lits = []
      · subst hlits
        exact Namespace.matchSegments_of_none hnone rest
      · exact ih hlits hclean.2.2 (by rw [hnone]; simp)

/-- **Segments without wildcards may be taken together**: only whether the first place is a directory
has to be looked up, since there is nothing below what is no directory. -/
theorem Namespace.IsTree.matchSegments_literals (hs : s.IsTree) {lits : List Text} (hne : lits ≠ [])
    (hw : ∀ lit ∈ lits, fs.isWild lit = false) (hclean : CleanSegments fs d (lits ++ rest))
    (h : s.kind? l = some .directory) :
    s.matchSegments fs d (lits ++ rest) l again =
      s.matchSegments fs d rest (follow l (lits.map fs.plainText)) false := by
  induction lits generalizing l again with
  | nil => exact absurd rfl hne
  | cons lit lits ih =>
    rw [List.cons_append, Namespace.matchSegments_literal h (hw lit (by simp)), List.map_cons,
      follow_cons]
    cases lits with
    | nil => rfl
    | cons lit' lits =>
      -- more segments follow, so this one is not empty and names a child
      have hlit : lit ≠ [] := fun he => by simpa using (hclean.2.1 he).1
      rw [stepInto_of_isName (hclean.1.isName hlit)]
      by_cases hdir : s.kind? (fs.plainText lit :: l) = some .directory
      · exact ih (by simp) (fun x hx => hw x (by simp [hx])) hclean.2.2 hdir
      · rw [List.cons_append, Namespace.matchSegments_cons_of_ne hdir,
          hs.matchSegments_follow_of_ne (by simp) hclean.2.2 hdir]

end PathGlob
