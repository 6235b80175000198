import PathGlob.Proofs.Braces.Alternatives
import PathGlob.Proofs.FileSystem.Trees
import PathGlob.Proofs.Names
import PathGlob.Proofs.Traversal.Composition
import PathGlob.Proofs.Walk.Translation

/-! # One tree in a file system and in a namespace
The same tree of directories and files can be held by a file system, below its current directory, and by
a namespace, below its root. The file system reads paths through its own rules and gives relative ones
back, the namespace reads them as texts and gives absolute ones; still a search finds the same in both.

* **`LeadsDown`** — patterns that never refer to a directory itself or to its parent.
* **`Job.StaysBelow`** — the invariant of their walks; **`Job.StaysBelow.next`** preserves it.
* **`Job.StaysBelow.answeredAlike`** — the two hierarchies answer alike where it holds.
* **`Namespace.IsTree.ofPaths_listing`** — a tree is built from the paths of its entries.
* **`Namespace.IsTree.same_matches`** — the main statement. -/

namespace PathGlob

variable {ε : Type} {fs : Flags} {sc : Scope} {l : Location} {base pattern : Text}

/-! ## Patterns -/

/-- **A segment that does not match the names for a directory itself and for its parent.** -/
def AvoidsReferences (fs : Flags) (seg : Text) : Prop :=
  nameMatches fs seg currentDirectory = false ∧ nameMatches fs seg parentDirectory = false

/-- What remains of a pattern in a walk that only leads down: segments that mean themselves and match
no reference to a directory. The last one may be empty. -/
def LeadsDown (fs : Flags) (rest : Text) : Prop :=
  ∃ segs, segs ≠ [] ∧ rest = joinWith ['/'] segs ∧ CleanSegments fs true segs ∧
    ∀ seg ∈ segs, AvoidsReferences fs seg

/-- The empty segment matches the empty name only. -/
theorem avoidsReferences_nil (fs : Flags) : AvoidsReferences fs [] := ⟨rfl, rfl⟩

/-- Nothing more leads down. -/
theorem leadsDown_nil (fs : Flags) : LeadsDown fs [] :=
  ⟨[[]], List.cons_ne_nil _ _, rfl,
    ⟨⟨.nil, List.not_mem_nil, List.not_mem_nil, by decide, by decide⟩, fun _ => ⟨rfl, rfl⟩, trivial⟩,
    fun _ hseg => List.mem_singleton.1 hseg ▸ avoidsReferences_nil fs⟩

/-- **What remains of a pattern begins with a segment that has a wildcard**, or with some that have
none. -/
theorem LeadsDown.part_cases (h : LeadsDown fs pattern) :
    ∃ front rest wild, Part.next fs.escapes pattern = ⟨joinWith ['/'] front, wild, restOf rest⟩ ∧
      front ≠ [] ∧ (wild = true → ∃ seg, front = [seg]) ∧ CleanSegments fs true (front ++ rest) ∧
      ∀ seg ∈ front ++ rest, AvoidsReferences fs seg := by
  obtain ⟨segs, hne, rfl, hclean, havoid⟩ := h
  obtain ⟨lits, rest, rfl, hlits, hrest⟩ := exists_literals fs segs
  by_cases hnil : lits = []
  · subst hnil
    cases rest with
    | nil => exact absurd rfl hne
    | cons seg rest =>
      exact ⟨[seg], rest, true, hclean.next_wild (hrest seg rfl), List.cons_ne_nil _ _,
        fun _ => ⟨seg, rfl⟩, hclean, havoid⟩
  · exact ⟨lits, rest, false, hclean.next_literals hnil hlits hrest, hnil, fun h => (by cases h), hclean,
      havoid⟩

/-- Behind a part what remains leads down. -/
theorem LeadsDown.rest (h : LeadsDown fs pattern) {r : Text}
    (hr : (Part.next fs.escapes pattern).rest? = some r) : LeadsDown fs r := by
  obtain ⟨front, rest, wild, hpart, -, -, hclean, havoid⟩ := h.part_cases
  rw [hpart] at hr
  unfold restOf at hr
  split at hr
  · cases hr
  · rename_i hne
    cases hr
    exact ⟨rest, hne, rfl, hclean.of_append, fun seg hseg => havoid seg (List.mem_append_right _ hseg)⟩

/-- A segment with a wildcard is not tried on the directory itself and its parent. -/
theorem LeadsDown.specialJobs_eq_nil (h : LeadsDown sc.flags pattern)
    (hw : (Part.next sc.flags.escapes pattern).wild = true) (base : Text) :
    (specialJobs sc base pattern : List (Job ε)) = [] := by
  obtain ⟨front, rest, wild, hpart, -, hseg, -, havoid⟩ := h.part_cases
  obtain ⟨seg, rfl⟩ := hseg (by rw [hpart] at hw; exact hw)
  obtain ⟨hcurrent, hparent⟩ := havoid seg (by simp)
  rw [specialJobs_eq, hpart]
  simp [specialNames, hcurrent, hparent]

/-! ## Paths -/

/-- **A text of a path puts names behind one another**, with a separator between neighbours and possibly
with an empty text at the end. -/
structure Flags.Spells (fs : Flags) (t : Text) (ts : List Text) : Prop where
  /-- The text does not end inside an escape. -/
  whole : fs.Whole t
  /-- Without its escapes it is what is spelled. -/
  plainText_eq : fs.plainText t = joinWith ['/'] ts
  /-- Something is spelled. -/
  ne_nil : ts ≠ []
  /-- These are names, apart from empty texts. -/
  isName : ∀ x ∈ ts, x ≠ [] → IsName x
  /-- No empty text is followed by a name. -/
  first : ts.head? = some [] → ts = [[]]

/-- A listed name is spelled as it is. -/
theorem Scope.spells_nameText (sc : Scope) {name : Text} (h : IsName name) :
    sc.flags.Spells (sc.nameText name) [name] where
  whole := sc.whole_nameText name
  plainText_eq := sc.plainText_nameText name
  ne_nil := List.cons_ne_nil _ _
  isName _ hx _ := List.mem_singleton.1 hx ▸ h
  first hempty := absurd (Option.some.inj hempty) h.ne_nil

/-- Segments without wildcards spell what they mean. -/
theorem CleanSegments.spells {lits : List Text} (hne : lits ≠ []) (h : CleanSegments fs true lits) :
    fs.Spells (joinWith ['/'] lits) (lits.map fs.plainText) where
  whole := h.wellEscaped.whole
  plainText_eq := h.plainText_joinWith
  ne_nil := by simpa using hne
  isName x hx hempty := by
    obtain ⟨lit, hlit, rfl⟩ := List.mem_map.1 hx
    refine (h.mem hlit).isName ?_
    rintro rfl
    exact hempty fs.plainText_nil
  first hhead := by
    cases lits with
    | nil => exact absurd rfl hne
    | cons lit lits =>
      have hlit : lit = [] := by
        by_contra hlit
        exact (h.1.isName hlit).ne_nil (Option.some.inj hhead)
      rw [(h.2.1 hlit).1, hlit, List.map_singleton, fs.plainText_nil]

/-- In front of further segments they spell names only. -/
theorem CleanSegments.ne_nil_of_append {lits rest : List Text} (hne : rest ≠ [])
    (h : CleanSegments fs true (lits ++ rest)) : ∀ lit ∈ lits, lit ≠ [] := by
  induction lits with
  | nil => exact fun _ hlit => absurd hlit List.not_mem_nil
  | cons lit lits ih =>
    refine List.forall_mem_cons.2 ⟨fun hempty => hne ?_, ih h.2.2⟩
    exact (List.append_eq_nil_iff.1 (h.2.1 hempty).1).2

/-- **A relative walk stands at a place** at or below the directory in which it started. -/
structure Scope.StandsAt (sc : Scope) (base : Text) (l : Location) : Prop where
  /-- The path is that of a relative walk. -/
  relative : sc.relative = true
  /-- It does not end inside an escape. -/
  whole : sc.flags.Whole base
  /-- The provider is asked for the path of the place. -/
  queryPath_eq : sc.queryPath base = l.walkedText
  /-- The place is reached by names. -/
  isName : ∀ name ∈ l, IsName name

/-- A relative walk starts in the current directory. -/
theorem Scope.standsAt_currentDirectory (hrel : sc.relative = true) :
    sc.StandsAt currentDirectory [] where
  relative := hrel
  whole := Flags.Whole.of_not_mem (by decide)
  queryPath_eq := Flags.plainText_of_not_mem (by decide)
  isName _ h := absurd h List.not_mem_nil

/-- The path of a place does not end in a separator. -/
theorem endsIn_walkedText (h : ∀ name ∈ l, IsName name) : endsIn '/' l.walkedText = false := by
  have hdown := isDownward_of_mem_walked h
  rw [Bool.eq_false_iff, Ne, Location.walkedText,
    endsIn_joinWith (List.cons_ne_nil _ _) fun x hx => (hdown x hx).slash_not_mem]
  rintro ⟨-, hlast⟩
  rcases List.mem_cons.1 (List.mem_of_getLast? hlast) with hdot | hname
  · cases hdot
  · exact (h [] (List.mem_reverse.1 hname)).ne_nil rfl

variable {t : Text} {ts : List Text}

/-- **Behind the path of a place comes what is spelled.** -/
theorem Scope.StandsAt.queryPath_joinPath (h : sc.StandsAt base l) (ht : sc.flags.Spells t ts) :
    sc.queryPath (joinPath base t) = joinWith ['/'] (currentDirectory :: (l.reverse ++ ts)) := by
  have hjoin : sc.queryPath (joinPath base t) =
      joinPath (sc.queryPath base) (sc.flags.plainText t) := h.whole.plainText_joinPath t
  rw [hjoin, h.queryPath_eq, joinPath, endsIn_walkedText h.isName, if_neg (by simp), ht.plainText_eq,
    Location.walkedText, ← List.cons_append, joinWith_append (List.cons_ne_nil _ _) ht.ne_nil]

/-- **A walk goes down by names.** -/
theorem Scope.StandsAt.joinPath (h : sc.StandsAt base l) (ht : sc.flags.Spells t ts)
    (hts : ∀ x ∈ ts, x ≠ []) : sc.StandsAt (PathGlob.joinPath base t) (ts.reverse ++ l) where
  relative := h.relative
  whole := h.whole.joinPath ht.whole
  queryPath_eq := by
    rw [h.queryPath_joinPath ht, Location.walkedText, List.reverse_append, List.reverse_reverse]
  isName x hx := (List.mem_append.1 hx).elim
    (fun hx => ht.isName x (List.mem_reverse.1 hx) (hts x (List.mem_reverse.1 hx))) (h.isName x)

/-- **The path of a test leads downwards.** -/
theorem Scope.StandsAt.isBelow_candidatePath (h : sc.StandsAt base l) (ht : sc.flags.Spells t ts) :
    IsBelow (sc.candidatePath (PathGlob.joinPath base t)) := by
  have hquery : sc.queryPath (PathGlob.joinPath base t) =
      '.' :: '/' :: joinWith ['/'] (l.reverse ++ ts) := by
    rw [h.queryPath_joinPath ht, joinWith_cons currentDirectory (by simp [ht.ne_nil])]
    rfl
  have hpath : sc.candidatePath (PathGlob.joinPath base t) = joinWith ['/'] (l.reverse ++ ts) := by
    rw [Scope.candidatePath, hquery]
    exact if_pos h.relative
  rw [hpath]
  -- a relative path without the dot in front must not begin with a separator
  refine isBelow_joinWith (fun x hx => ?_) fun hhead => ?_
  · rcases List.mem_append.1 hx with hx | hx
    · exact .inr (.inr (h.isName x (List.mem_reverse.1 hx)))
    · exact or_iff_not_imp_left.2 fun hne => .inr (ht.isName x hx hne)
  · cases hl : l.reverse with
    | nil =>
      rw [hl] at hhead
      exact ht.first hhead
    | cons x xs =>
      rw [hl] at hhead
      have hx := h.isName x (List.mem_reverse.1 (hl ▸ List.mem_cons_self))
      exact absurd (Option.some.inj hhead) hx.ne_nil

/-! ## The invariant -/

/-- **The invariant of a walk that only leads down.** -/
def Job.StaysBelow : Job ε → Prop
  | .visit sc base rest _ => (∃ l, sc.StandsAt base l) ∧ LeadsDown sc.flags rest
  | .enumerate sc base rest => (∃ l, sc.StandsAt base l) ∧ LeadsDown sc.flags rest ∧
      (Part.next sc.flags.escapes rest).wild = true
  | .candidate sc path => IsBelow (sc.candidatePath path)
  | .tryFile path => IsBelow path
  | .deliver _ => True
  | .report _ => True

/-- Going on behind what is spelled keeps the invariant. -/
theorem Scope.StandsAt.staysBelow_continueAt (h : sc.StandsAt base l) (ht : sc.flags.Spells t ts)
    {rest? : Option Text}
    (hrest : ∀ r, rest? = some r → (∀ x ∈ ts, x ≠ []) ∧ LeadsDown sc.flags r) :
    (continueAt sc (PathGlob.joinPath base t) rest? : Job ε).StaysBelow := by
  cases rest? with
  | none => exact h.isBelow_candidatePath ht
  | some r =>
    obtain ⟨hne, hdown⟩ := hrest r rfl
    exact ⟨⟨_, h.joinPath ht hne⟩, hdown⟩

/-- The jobs in a directory keep it. -/
theorem Scope.StandsAt.staysBelow_visitJobs (h : sc.StandsAt base l) (hdown : LeadsDown sc.flags pattern)
    (again : Bool) : ∀ u ∈ (visitJobs sc base pattern again : List (Job ε)), u.StaysBelow := by
  intro u hu
  rw [mem_visitJobs_iff] at hu
  split at hu
  · rename_i hw
    rcases hu with ⟨-, -, rfl⟩ | rfl
    · refine ⟨⟨l, h⟩, ?_⟩
      cases hr : (Part.next sc.flags.escapes pattern).rest? with
      | none => exact leadsDown_nil sc.flags
      | some r => exact hdown.rest hr
    · exact ⟨⟨l, h⟩, hdown, hw⟩
  · rename_i hw
    obtain ⟨front, rest, wild, hpart, hne, hwild, hclean, -⟩ := hdown.part_cases
    rw [hu]
    have htext : (Part.next sc.flags.escapes pattern).text = joinWith ['/'] front := by rw [hpart]
    rw [htext]
    -- only in front of further segments it matters that those of the part are names
    refine h.staysBelow_continueAt (hclean.take.spells hne) fun r hr => ⟨?_, hdown.rest hr⟩
    have hrest : rest ≠ [] := by
      rintro rfl
      rw [hpart] at hr
      cases hr
    intro x hx
    obtain ⟨lit, hlit, rfl⟩ := List.mem_map.1 hx
    have hname := (hclean.take.mem hlit).isName (hclean.ne_nil_of_append hrest lit hlit)
    exact hname.ne_nil

/-- The jobs for a listed name keep it. -/
theorem Scope.StandsAt.staysBelow_nameJobs (h : sc.StandsAt base l) (hdown : LeadsDown sc.flags pattern)
    {name : Text} (hname : IsName name) :
    ∀ u ∈ (nameJobs sc base pattern name : List (Job ε)), u.StaysBelow := by
  intro u hu
  have hspells := sc.spells_nameText hname
  have hne : ∀ x ∈ [name], x ≠ [] := fun x hx => List.mem_singleton.1 hx ▸ hname.ne_nil
  obtain ⟨-, rfl | ⟨-, rfl⟩⟩ := mem_nameJobs_iff.1 hu
  · exact h.staysBelow_continueAt hspells fun r hr => ⟨hne, hdown.rest hr⟩
  · exact ⟨⟨_, h.joinPath hspells hne⟩, hdown⟩

/-- **Every turn keeps the invariant**, if proper names are listed. -/
theorem Job.StaysBelow.next {u : Job ε} (h : u.StaysBelow) {p : Provider ε}
    (hp : ∀ path, ∀ x ∈ p.children path, IsName (p.entryName x)) : ∀ v ∈ u.next p, v.StaysBelow := by
  intro v hv
  cases u with
  | visit sc base rest again =>
    obtain ⟨⟨l, hl⟩, hdown⟩ := h
    rw [Job.next_visit] at hv
    split at hv
    · exact hl.staysBelow_visitJobs hdown again v hv
    · cases hv
  | enumerate sc base rest =>
    obtain ⟨⟨l, hl⟩, hdown, hw⟩ := h
    rw [Job.next_enumerate, hdown.specialJobs_eq_nil hw, List.append_nil] at hv
    obtain ⟨name, hname, hv⟩ := List.mem_flatMap.1 hv
    obtain ⟨x, hx, rfl⟩ := List.mem_map.1 hname
    exact hl.staysBelow_nameJobs hdown (hp _ x hx) v hv
  | candidate sc path =>
    rcases Job.next_candidate_cases p sc path with ⟨e, he⟩ | hnone | hfile
    · rw [he] at hv
      obtain rfl := List.mem_singleton.1 hv
      trivial
    · rw [hnone] at hv
      cases hv
    · rw [hfile] at hv
      obtain rfl := List.mem_singleton.1 hv
      exact h
  | tryFile path =>
    rw [Job.next_tryFile] at hv
    obtain ⟨e, -, rfl⟩ := List.mem_map.1 hv
    trivial
  | deliver e => cases hv
  | report n => cases hv

/-! ## Answers -/

/-- The path of an entry of a namespace as seen from the root: without the separator at its front, and a
reference to the directory itself for the root. -/
def Entry.relativePath (e : Entry) : Text :=
  match e.path.drop 1 with
  | [] => currentDirectory
  | path => path

/-- Below the root it is the path without the separator. -/
theorem Entry.relativePath_eq {e : Entry} (h : e.path.drop 1 ≠ []) :
    e.relativePath = e.path.drop 1 := by
  unfold Entry.relativePath
  split
  · rename_i hroot
    exact absurd hroot h
  · rfl

/-- For the entry at a place it is the path of the place. -/
theorem relativePath_entry (h : ∀ name ∈ l, IsName name) (k : Kind) :
    (Node.entry ⟨l, k⟩).relativePath = l.relativeText := by
  cases l with
  | nil => rfl
  | cons name l =>
    have hpath : (Node.entry ⟨name :: l, k⟩).path.drop 1 = Location.relativeText (name :: l) := rfl
    rw [Entry.relativePath_eq (hpath ▸ relativeText_ne_nil h), hpath]

variable {tree : Namespace} {s : FileSystem} {path : Text}

/-- **A file system finds what a namespace with its tree finds**, a directory or a file. -/
theorem FileSystem.Holds.find_eq_map (hs : s.Holds tree) (hcwd : tree.cwd = []) (h : IsBelow path) :
    s.provider.findDirectory path = (tree.provider.findDirectory path).map Entry.relativePath ∧
      s.provider.findFile path = (tree.provider.findFile path).map Entry.relativePath := by
  have hplace := h.locate_eq hcwd
  constructor
  · show (s.find true path).1 = (tree.directoryAt? (tree.locate path)).map Entry.relativePath
    rw [hs.find_eq h, hplace, Namespace.directoryAt?]
    by_cases hk : tree.kind? (placeOf path) = some .directory
    · simp [hk, relativePath_entry h.isName_placeOf]
    · simp [hk]
  · show (s.find false path).1 = (tree.fileAt? (tree.locate path)).map Entry.relativePath
    rw [hs.find_eq h, hplace, Namespace.fileAt?]
    by_cases hk : tree.kind? (placeOf path) = some .file
    · simp [hk, relativePath_entry h.isName_placeOf]
    · simp [hk]

/-- **The questions of a walk that stays below are answered alike** by a namespace and by a file system
that holds its tree. -/
theorem Job.StaysBelow.answeredAlike {u : Job Entry} (h : u.StaysBelow) (htree : tree.IsTree)
    (hcwd : tree.cwd = []) (hs : s.Holds tree) :
    u.AnsweredAlike tree.provider s.provider Entry.relativePath := by
  cases u with
  | visit sc base rest again =>
    obtain ⟨⟨l, hl⟩, -⟩ := h
    have hbelow : IsBelow (sc.queryPath base) := hl.queryPath_eq ▸ isBelow_walkedText hl.isName
    exact (hs.find_eq_map hcwd hbelow).1
  | enumerate sc base rest =>
    obtain ⟨⟨l, hl⟩, -⟩ := h
    show List.Perm _ _
    rw [hl.queryPath_eq, htree.map_entryName_children, hs.map_entryName_children htree hl.isName,
      (isBelow_walkedText hl.isName).locate_eq hcwd, placeOf_walkedText hl.isName]
    exact hs.namesAt_perm htree l
  | candidate sc path => exact (hs.find_eq_map hcwd h).1
  | tryFile path => exact (hs.find_eq_map hcwd h).2
  | deliver e => trivial
  | report n => trivial

/-- What is listed in a namespace has a proper name. -/
theorem Namespace.IsTree.isName_of_children (htree : tree.IsTree) (path : Text) :
    ∀ x ∈ tree.provider.children path, IsName (tree.provider.entryName x) := by
  intro x hx
  have hname := List.mem_map_of_mem (f := tree.provider.entryName) hx
  rw [htree.map_entryName_children] at hname
  exact htree.isName_of_mem_childNames hname

/-- Whether a file system holds a tree is a matter of what is where. -/
theorem FileSystem.Holds.congr {t : Namespace} (hs : s.Holds tree)
    (h : ∀ l, t.kind? l = tree.kind? l) : s.Holds t where
  kind? l := (hs.kind? l).trans (congrArg _ (h l).symm)
  distinct := hs.distinct
  names l hl := hs.names l (h l ▸ hl)
  answers l hl := hs.answers l (h l ▸ hl)

/-! ## Searches -/

/-- **A relative pattern that only leads down**: it has no brace groups, no escapes and no drive mark, no
part but the last one is empty, and no part matches a reference to a directory. -/
structure IsDescending (fs : Flags) (pattern : Text) : Prop where
  /-- There are no brace groups. -/
  braces : '\x7b' ∉ pattern ∧ '\x7d' ∉ pattern
  /-- It does not begin with a separator. -/
  relative : beginsWith ['/'] pattern = false
  /-- There is no escape. -/
  backslash : '\\' ∉ pattern
  /-- There is no drive mark. -/
  colon : ':' ∉ pattern
  /-- No part but the last one is empty. -/
  parts : ∀ seg ∈ (pieces '/' pattern).dropLast, seg ≠ []
  /-- No part matches the names for a directory itself and for its parent. -/
  references : ∀ seg ∈ pieces '/' pattern, AvoidsReferences fs seg

/-- A piece of such a pattern means itself. -/
theorem IsDescending.cleanSegment (h : IsDescending fs pattern) {seg : Text}
    (hseg : seg ∈ pieces '/' pattern) : CleanSegment fs seg := by
  obtain ⟨hcurrent, hparent⟩ := h.references seg hseg
  refine cleanSegment_of_mem_pieces hseg h.backslash h.colon ⟨?_, ?_⟩
  · rintro rfl
    rw [(nameMatches_references fs).1] at hcurrent
    cases hcurrent
  · rintro rfl
    rw [(nameMatches_references fs).2] at hparent
    cases hparent

/-- Such a pattern leads down. -/
theorem IsDescending.leadsDown (h : IsDescending fs pattern) : LeadsDown fs pattern :=
  ⟨pieces '/' pattern, pieces_ne_nil _ _, (joinWith_pieces '/' pattern).symm,
    .of_forall (fun _ => h.cleanSegment) h.parts fun _ => rfl, h.references⟩

/-- A `**` alone is walked as a star, and that is such a pattern if the `**` is. -/
theorem IsDescending.walkedPattern (h : IsDescending fs pattern) :
    IsDescending fs (walkedPattern pattern) := by
  unfold PathGlob.walkedPattern
  split
  · rename_i hstar
    obtain ⟨hcurrent, hparent⟩ := h.references doubleStar (by rw [hstar]; decide)
    refine ⟨by decide, rfl, by decide, by decide, by decide, fun seg hseg => ?_⟩
    obtain rfl : seg = ['*'] := List.mem_singleton.1 hseg
    exact ⟨(nameMatches_star fs _).trans hcurrent, (nameMatches_star fs _).trans hparent⟩
  · exact h

/-- Without brace groups and backslashes a search is the walk of its pattern. -/
theorem IsDescending.searchJobs_eq (h : IsDescending fs pattern) :
    (searchJobs fs pattern : List (Job ε)) = startJobs fs pattern := by
  unfold searchJobs
  split
  · rename_i hempty
    rw [List.isEmpty_iff.1 hempty]
    rfl
  · rw [expandBraces_of_not_mem (by rw [unescaped_of_not_mem h.backslash]; exact h.braces.1)
      (by rw [unescaped_of_not_mem h.backslash]; exact h.braces.2),
      withoutBraceEscapes_of_not_mem h.backslash]
    exact List.flatMap_singleton _ _

/-- **The search of such a pattern begins with the invariant.** -/
theorem IsDescending.staysBelow (h : IsDescending fs pattern) :
    ∀ u ∈ (searchJobs fs pattern : List (Job ε)), u.StaysBelow := by
  have hwalked := h.walkedPattern
  have hanchor : isAnchored (PathGlob.walkedPattern pattern) = false := by
    rw [isAnchored, hwalked.relative, Bool.false_or, Bool.eq_false_iff]
    exact fun hcolon => hwalked.colon (List.contains_iff_mem.1 hcolon)
  intro u hu
  rw [h.searchJobs_eq, startJobs] at hu
  dsimp only at hu
  split at hu
  · cases hu
  · rw [hanchor] at hu
    obtain rfl := List.mem_singleton.1 hu
    exact ⟨⟨[], Scope.standsAt_currentDirectory rfl⟩, hwalked.leadsDown⟩

/-- **A search finds the same in a file system and in a namespace with the same tree.** The tree can be
given by the paths of its entries. However a namespace below the root has been built from paths, if it
has the tree that the file system holds, then a search for a pattern that only leads down ends in both;
and the entries of the file system are those of the namespace in the order of its listings, with
relative paths. -/
theorem Namespace.IsTree.same_matches (htree : tree.IsTree) (hs : s.Holds tree) :
    (∃ t, Namespace.ofPaths ['/'] tree.listing = .ok t ∧ ∀ l, t.kind? l = tree.kind? l) ∧
    ∀ (paths : List Text) (t : Namespace), Namespace.ofPaths ['/'] paths = .ok t →
      (∀ l, t.kind? l = tree.kind? l) → ∀ (fs : Flags) (pattern : Text), IsDescending fs pattern →
        ∃ es es', Yields s.provider (searchJobs fs pattern) es ∧
          Yields t.provider (searchJobs fs pattern) es' ∧
          (es'.map Entry.relativePath).Perm es := by
  refine ⟨htree.ofPaths_listing, fun paths t ht hkind fs pattern hpattern => ?_⟩
  -- whatever the paths, what is built from them is a tree with its current directory at the root
  have hmeets : t.Meets [] paths := by
    rcases Namespace.ofPaths_cases ['/'] paths with ⟨t', ht', hmeets⟩ | ⟨⟨e, he⟩, -⟩
    · rw [ht] at ht'
      cases ht'
      exact hmeets
    · rw [ht] at he
      cases he
  have hholds : s.Holds t := hs.congr hkind
  obtain ⟨es', hes'⟩ := ends_searchJobs hmeets.isTree.descends_wellFounded fs pattern
  obtain ⟨es, hes, hperm⟩ := hes'.translated
    (fun u hu => hu.answeredAlike hmeets.isTree hmeets.cwd hholds)
    (fun u hu => hu.next hmeets.isTree.isName_of_children) hpattern.staysBelow
  rw [map_searchJobs] at hes
  exact ⟨es, es', hes, hes', hperm⟩

/-- The tree of two files of the small namespace is held by a file system. In a namespace that is built
from its listing `**/x` finds `/x` and `/d/x`, and in the file system it finds `x` and `d/x`, in one order
or the other. -/
theorem Namespace.small_same_matches :
    Namespace.small.onDisk.Holds Namespace.small ∧ IsDescending Flags.standard "**/x".toList ∧
      ∃ t, Namespace.ofPaths ['/'] Namespace.small.listing = .ok t ∧
        Yields t.provider (searchJobs Flags.standard "**/x".toList)
          [⟨"/x".toList, false⟩, ⟨"/d/x".toList, false⟩] ∧
        ∃ es, Yields Namespace.small.onDisk.provider (searchJobs Flags.standard "**/x".toList) es ∧
          ["x".toList, "d/x".toList].Perm es := by
  have htree : Namespace.small.IsTree := Namespace.reachable_small.isTree.1
  have hholds : Namespace.small.onDisk.Holds Namespace.small :=
    htree.holds_onDisk (by decide) (by decide)
  have hpattern : IsDescending Flags.standard "**/x".toList :=
    ⟨by decide, by decide, by decide, by decide, by decide, by unfold AvoidsReferences; decide⟩
  have hbuilt : Namespace.ofPaths ['/'] Namespace.small.listing =
      .ok { Namespace.small with cwd := [] } := rfl
  have hfound : Yields ({ Namespace.small with cwd := [] } : Namespace).provider
      (searchJobs Flags.standard "**/x".toList) [⟨"/x".toList, false⟩, ⟨"/d/x".toList, false⟩] :=
    ⟨40, List.isEmpty_iff.1 (by decide +kernel), by decide +kernel⟩
  obtain ⟨-, hsame⟩ := htree.same_matches hholds
  obtain ⟨es, es', hes, hes', hperm⟩ := hsame _ _ hbuilt (fun l => rfl) _ _ hpattern
  obtain rfl := hes'.unique hfound
  exact ⟨hholds, hpattern, _, hbuilt, hfound, es, hes, hperm⟩

end PathGlob
