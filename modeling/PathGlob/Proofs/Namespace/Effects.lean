import PathGlob.Proofs.Namespace.Additions
import PathGlob.Proofs.Namespace.Lookups

/-! # What additions change
An addition that succeeds makes its entry and the directories above it that are missing. Whatever else
is looked up or listed stays as it was, in its order.

* **`Beyond`** — the places on the way to another one that lie behind a place on that way.
* **`Namespace.GrowsTo.exists_childrenAt`** — what a directory lists behind what it listed before.
* **`Namespace.GrowsAlong`** — a namespace has grown by the places beyond another one.
* **`Namespace.Gains`** — all that changes then, as it is looked up and listed;
  **`Namespace.GrowsAlong.gains`** derives it from what is where.
* **`Namespace.Reachable.successful_additions`** — what an addition that succeeds changes. -/

namespace PathGlob

variable {s s' : Namespace} {l x top : Location} {name : Text} {k : Kind} {path : Text}

/-! ## On the way to a place -/

/-- **A place beyond `top`** on the way to `l`. -/
def Beyond (top l x : Location) : Prop := x <:+ l ∧ ¬x <:+ top

instance (top l x : Location) : Decidable (Beyond top l x) := inferInstanceAs (Decidable (_ ∧ _))

/-- The way to a place ends with the place, behind the way to its parent. -/
theorem suffix_iff_eq_or_tail : x <:+ l ↔ x = l ∨ x <:+ l.tail := by
  cases l with
  | nil => simp
  | cons name l => exact List.suffix_cons_iff

/-- Above a place there is a next one on the way to it. -/
theorem exists_cons_suffix (h : x <:+ l) (hne : x ≠ l) : ∃ name, name :: x <:+ l := by
  obtain ⟨names, rfl⟩ := h
  rcases names.eq_nil_or_concat with rfl | ⟨names, name, rfl⟩
  · exact absurd rfl hne
  · exact ⟨name, names, by simp⟩

/-- There is only one next place. -/
theorem eq_of_cons_suffix {name' : Text} (h : name :: x <:+ l) (h' : name' :: x <:+ l) :
    name = name' := by
  have hsuffix := List.suffix_of_suffix_length_le h h' (by simp)
  exact (List.cons.inj (hsuffix.eq_of_length (by simp))).1

/-- Nothing lies below a place on the way to it. -/
theorem not_cons_suffix_self (name : Text) (x : Location) : ¬name :: x <:+ x := by
  intro h
  have hlength := h.length_le
  rw [List.length_cons] at hlength
  omega

/-- The next place on the way is beyond a place that is on the way itself or beyond it. -/
theorem Beyond.of_cons_suffix (h : name :: x <:+ l) (hx : x = top ∨ Beyond top l x) :
    Beyond top l (name :: x) := by
  refine ⟨h, fun hsuffix => ?_⟩
  rcases hx with rfl | hx
  · exact not_cons_suffix_self name x hsuffix
  · exact hx.2 ((List.suffix_cons name x).trans hsuffix)

/-- Only there is a place beyond directly below. -/
theorem Beyond.of_cons (h : Beyond top l (name :: x)) (htop : top <:+ l) :
    x = top ∨ Beyond top l x := by
  have hx : x <:+ l := (List.suffix_cons name x).trans h.1
  by_contra hno
  rw [not_or] at hno
  have hsuffix : x <:+ top := by
    by_contra hnot
    exact hno.2 ⟨hx, hnot⟩
  -- the next place on the way to `top` is the one on the way to `l`
  obtain ⟨name', h'⟩ := exists_cons_suffix hsuffix hno.1
  rw [eq_of_cons_suffix h.1 (h'.trans htop)] at h
  exact h.2 h'

/-- **There is a deepest place** on the way to a place at which there is something. -/
theorem Namespace.exists_deepest (s : Namespace) (l : Location) :
    ∃ top, top <:+ l ∧ (s.kind? top).isSome ∧ ∀ x, Beyond top l x → s.kind? x = none := by
  induction l with
  | nil => exact ⟨[], List.suffix_refl _, by simp, fun x hx => absurd hx.1 hx.2⟩
  | cons name l ih =>
    cases hk : s.kind? (name :: l) with
    | some k => exact ⟨name :: l, List.suffix_refl _, by rw [hk]; rfl, fun x hx => absurd hx.1 hx.2⟩
    | none =>
      obtain ⟨top, htop, hsome, hfree⟩ := ih
      refine ⟨top, htop.trans (List.suffix_cons name l), hsome, fun x hx => ?_⟩
      rcases List.suffix_cons_iff.1 hx.1 with rfl | hsuffix
      · exact hk
      · exact hfree x ⟨hsuffix, hx.2⟩

/-! ## Listings of a namespace that has grown -/

/-- **What a directory lists in a namespace that has grown**: what it listed before, and behind it once
each of the children that have come in. -/
theorem Namespace.GrowsTo.exists_childrenAt (h : s.GrowsTo s') (hs' : s'.IsTree) (l : Location) :
    ∃ new : List Node, new.Nodup ∧ s'.childrenAt l = s.childrenAt l ++ new.map Node.entry ∧
      ∀ n, n ∈ new ↔ ∃ name k, n = ⟨name :: l, k⟩ ∧ s.kind? (name :: l) = none ∧
        s'.kind? (name :: l) = some k := by
  obtain ⟨rest, hrest⟩ := h.nodes
  have hnodup : s'.nodes.Nodup := .of_map _ hs'.distinct
  have hplaces := hs'.distinct
  rw [← hrest, List.map_append, List.nodup_append] at hplaces
  refine ⟨rest.filter (Node.isChildOf l), ?_, ?_, ?_⟩
  · exact (List.nodup_append.1 (hrest ▸ hnodup)).2.1.filter _
  · rw [Namespace.childrenAt, Namespace.childrenAt, ← hrest, List.filter_append, List.map_append]
  · rintro ⟨place, k⟩
    simp only [List.mem_filter, Node.isChildOf_iff, Node.mk.injEq]
    constructor
    · rintro ⟨hn, name, rfl⟩
      have hmem : (⟨name :: l, k⟩ : Node) ∈ s'.nodes := hrest ▸ List.mem_append_right _ hn
      refine ⟨name, k, ⟨rfl, rfl⟩, ?_, hs'.kind?_location hmem⟩
      -- no node from before has the place of a further one
      rw [← Option.not_isSome_iff_eq_none, Namespace.kind?_cons_isSome]
      rintro ⟨m, hm, hloc⟩
      exact hplaces.2.2 _ (List.mem_map_of_mem hm) _ (List.mem_map_of_mem hn) hloc
    · rintro ⟨name, k', ⟨rfl, rfl⟩, hfree, hk⟩
      have hmem := hs'.mem_nodes_iff (n := ⟨name :: l, k⟩).2 ⟨List.cons_ne_nil _ _, hk⟩
      rw [← hrest] at hmem
      refine ⟨(List.mem_append.1 hmem).resolve_left fun hn => ?_, name, rfl⟩
      have hsome := Namespace.kind?_cons_isSome.2 ⟨_, hn, rfl⟩
      rw [hfree] at hsome
      cases hsome

/-- Where no child has come in, the listing stays as it was. -/
theorem Namespace.GrowsTo.childrenAt_eq (h : s.GrowsTo s') (hs' : s'.IsTree)
    (hsame : ∀ name, s'.kind? (name :: l) = s.kind? (name :: l)) :
    s'.childrenAt l = s.childrenAt l := by
  obtain ⟨new, -, hlist, hnew⟩ := h.exists_childrenAt hs' l
  have hnil : new = [] := by
    rw [List.eq_nil_iff_forall_not_mem]
    intro n hn
    obtain ⟨name, k, -, hfree, hk⟩ := (hnew n).1 hn
    rw [hsame, hfree] at hk
    cases hk
  rw [hlist, hnil, List.map_nil, List.append_nil]

/-- Where one child has come in, its entry stands at the end of the listing. -/
theorem Namespace.GrowsTo.childrenAt_eq_append (h : s.GrowsTo s') (hs' : s'.IsTree)
    (hfree : s.kind? (name :: l) = none) (hk : s'.kind? (name :: l) = some k)
    (hsame : ∀ name', name' ≠ name → s'.kind? (name' :: l) = s.kind? (name' :: l)) :
    s'.childrenAt l = s.childrenAt l ++ [Node.entry ⟨name :: l, k⟩] := by
  obtain ⟨new, hnodup, hlist, hnew⟩ := h.exists_childrenAt hs' l
  have hone : new = [⟨name :: l, k⟩] := by
    rw [← List.perm_singleton, List.perm_ext_iff_of_nodup hnodup (List.nodup_singleton _)]
    intro n
    rw [hnew, List.mem_singleton]
    constructor
    · rintro ⟨name', k', rfl, hfree', hk'⟩
      have hname : name' = name := by
        by_contra hne
        rw [hsame name' hne, hfree'] at hk'
        cases hk'
      subst hname
      rw [hk] at hk'
      rw [Option.some.inj hk']
    · rintro rfl
      exact ⟨name, k, rfl, hfree, hk⟩
  rw [hlist, hone, List.map_singleton]

/-! ## Growth along a way -/

/-- The kind of a place on the way to one of kind `k`. -/
def kindOnWay (l : Location) (k : Kind) (x : Location) : Kind := if x = l then k else .directory

/-- **A namespace has grown by the places beyond `top`** on the way to `l`: there are directories now,
and something of kind `k` at `l`. -/
structure Namespace.GrowsAlong (s s' : Namespace) (top l : Location) (k : Kind) : Prop where
  /-- It has grown. -/
  growsTo : s.GrowsTo s'
  /-- It was a tree. -/
  isTree : s.IsTree
  /-- It is one. -/
  isTree' : s'.IsTree
  /-- There was nothing at the place. -/
  isNew : s.kind? l = none
  /-- `top` lies on the way. -/
  onWay : top <:+ l
  /-- There was a directory. -/
  directory : s.kind? top = some .directory
  /-- There was nothing beyond it. -/
  free : ∀ x, Beyond top l x → s.kind? x = none
  /-- Beyond it there is something now, and elsewhere all is as it was. -/
  kind?_eq : ∀ x, s'.kind? x = if Beyond top l x then some (kindOnWay l k x) else s.kind? x

/-- **Growth along a way is known by what is where.** -/
theorem Namespace.GrowsTo.exists_growsAlong (h : s.GrowsTo s') (hs : s.IsTree) (hs' : s'.IsTree)
    (hnew : s.kind? l = none)
    (hkind : ∀ x k', s'.kind? x = some k' ↔
      s.kind? x = some k' ∨ (k' = .directory ∧ x <:+ l.tail) ∨ (k' = k ∧ x = l)) :
    ∃ top, s.GrowsAlong s' top l k := by
  obtain ⟨top, htop, hsome, hfree⟩ := s.exists_deepest l
  have hne : top ≠ l := by
    rintro rfl
    rw [hnew] at hsome
    cases hsome
  have hdir : s.kind? top = some .directory := by
    obtain ⟨k₀, hk₀⟩ := Option.isSome_iff_exists.1 hsome
    have habove := (suffix_iff_eq_or_tail.1 htop).resolve_left hne
    have hnow := (hkind top .directory).2 (.inr (.inl ⟨rfl, habove⟩))
    rw [h.kind? hk₀] at hnow
    rw [hk₀, hnow]
  refine ⟨top, h, hs, hs', hnew, htop, hdir, hfree, fun x => ?_⟩
  unfold kindOnWay
  by_cases hx : Beyond top l x
  · rw [if_pos hx, hkind]
    by_cases hxl : x = l
    · exact .inr (.inr ⟨if_pos hxl, hxl⟩)
    · exact .inr (.inl ⟨if_neg hxl, (suffix_iff_eq_or_tail.1 hx.1).resolve_left hxl⟩)
  · -- on the way there is a directory already, where nothing is beyond `top`
    have hold : x <:+ l → s.kind? x = some .directory := fun hxl =>
      hs.isDirectory_of_suffix hdir (not_and_not_right.1 hx hxl)
    rw [if_neg hx]
    refine Option.ext fun k' => (hkind x k').trans ⟨?_, .inl⟩
    rintro (hk | ⟨rfl, hxl⟩ | ⟨rfl, rfl⟩)
    · exact hk
    · exact hold (hxl.trans (List.tail_suffix l))
    · rw [hold (List.suffix_refl _)] at hnew
      cases hnew

section

variable (h : s.GrowsAlong s' top l k)
include h

/-- The place itself is beyond. -/
theorem Namespace.GrowsAlong.beyond_self : Beyond top l l := by
  refine ⟨List.suffix_refl l, fun hsuffix => ?_⟩
  have hdir := h.isTree.isDirectory_of_suffix h.directory hsuffix
  rw [h.isNew] at hdir
  cases hdir

/-- So are the missing places above it, and they are other ones. -/
theorem Namespace.GrowsAlong.beyond_above (hx : Beyond top l.tail x) : Beyond top l x ∧ x ≠ l := by
  refine ⟨⟨hx.1.trans (List.tail_suffix l), hx.2⟩, ?_⟩
  rintro rfl
  cases x with
  | nil => exact hx.2 List.nil_suffix
  | cons name x => exact not_cons_suffix_self name x hx.1

/-- **A directory on the way lists the next place on it**, behind what it listed before. -/
theorem Namespace.GrowsAlong.childrenAt_onWay (hx : x = top ∨ Beyond top l x) (hne : x ≠ l) :
    ∃ name, name :: x <:+ l ∧ s'.childrenAt x =
      s.childrenAt x ++ [Node.entry ⟨name :: x, kindOnWay l k (name :: x)⟩] := by
  have hxl : x <:+ l := by
    rcases hx with rfl | hx
    · exact h.onWay
    · exact hx.1
  obtain ⟨name, hname⟩ := exists_cons_suffix hxl hne
  have hbeyond := Beyond.of_cons_suffix hname hx
  refine ⟨name, hname, h.growsTo.childrenAt_eq_append h.isTree' (h.free _ hbeyond) ?_ ?_⟩
  · rw [h.kind?_eq, if_pos hbeyond]
  · intro name' hother
    rw [h.kind?_eq, if_neg fun hbeyond' => hother (eq_of_cons_suffix hbeyond'.1 hname)]

/-- Other directories list what they listed before. -/
theorem Namespace.GrowsAlong.childrenAt_other (hx : x ≠ top) (hbeyond : ¬Beyond top l x) :
    s'.childrenAt x = s.childrenAt x := by
  refine h.growsTo.childrenAt_eq h.isTree' fun name => ?_
  rw [h.kind?_eq, if_neg]
  intro hname
  rcases hname.of_cons h.onWay with heq | hx'
  · exact hx heq
  · exact hbeyond hx'

/-- The new entry lists nothing. -/
theorem Namespace.GrowsAlong.childrenAt_self : s'.childrenAt l = [] := by
  have hold := h.isTree.childrenAt_eq_nil (l := l) (by rw [h.isNew]; simp)
  rw [← hold]
  refine h.growsTo.childrenAt_eq h.isTree' fun name => ?_
  rw [h.kind?_eq, if_neg fun hbeyond => not_cons_suffix_self name l hbeyond.1]

end

/-! ## What changes -/

/-- **All that changes when an entry of kind `k` is made at `l`**, if `top` was the deepest place above
it at which there was something. -/
structure Namespace.Gains (s s' : Namespace) (top l : Location) (k : Kind) : Prop where
  /-- There was a directory at `top`, which lies above `l`. -/
  above : top <:+ l ∧ top ≠ l ∧ s.kind? top = some .directory
  /-- There was nothing beyond it. -/
  free : ∀ x, Beyond top l x → s.kind? x = none
  /-- The entry is found now. -/
  findsEntry : ∀ t, s.locate t = l → s'.FindsOnly t (Node.entry ⟨l, k⟩)
  /-- What was missing above it are directories now. -/
  findsAbove : ∀ t, Beyond top l.tail (s.locate t) →
    s'.FindsOnly t (Node.entry ⟨s.locate t, .directory⟩)
  /-- At every other path the same is found as before. -/
  findsOther : ∀ t, ¬Beyond top l (s.locate t) →
    s'.provider.findDirectory t = s.provider.findDirectory t ∧
      s'.provider.findFile t = s.provider.findFile t
  /-- The directory at `top` lists one further entry at the end, the next on the way. -/
  listsTop : ∀ t, s.locate t = top → ∃ name, name :: top <:+ l ∧ s'.provider.children t =
    s.provider.children t ++ [Node.entry ⟨name :: top, kindOnWay l k (name :: top)⟩]
  /-- Each new directory above the entry lists the next one on the way, and nothing else. -/
  listsAbove : ∀ t, Beyond top l.tail (s.locate t) →
    ∃ name, name :: s.locate t <:+ l ∧ s'.provider.children t =
      [Node.entry ⟨name :: s.locate t, kindOnWay l k (name :: s.locate t)⟩]
  /-- The entry lists nothing. -/
  listsEntry : ∀ t, s.locate t = l → s'.provider.children t = []
  /-- Every other path lists what it listed before. -/
  listsOther : ∀ t, s.locate t ≠ top → ¬Beyond top l (s.locate t) →
    s'.provider.children t = s.provider.children t

/-- A path finds what is at its place, and so the same if the same is there. -/
theorem Namespace.GrowsTo.find_eq (h : s.GrowsTo s')
    (hkind : s'.kind? (s.locate path) = s.kind? (s.locate path)) :
    s'.provider.findDirectory path = s.provider.findDirectory path ∧
      s'.provider.findFile path = s.provider.findFile path := by
  show s'.directoryAt? (s'.locate path) = s.directoryAt? (s.locate path) ∧
    s'.fileAt? (s'.locate path) = s.fileAt? (s.locate path)
  rw [h.locate]
  simp only [Namespace.directoryAt?, Namespace.fileAt?, hkind, and_self]

/-- **Growth along a way, as it is looked up and listed.** -/
theorem Namespace.GrowsAlong.gains (h : s.GrowsAlong s' top l k) : s.Gains s' top l k := by
  have hlocate := h.growsTo.locate
  have hfinds : ∀ t, Beyond top l (s.locate t) →
      s'.FindsOnly t (Node.entry ⟨s.locate t, kindOnWay l k (s.locate t)⟩) := by
    intro t ht
    rw [← hlocate t] at ht ⊢
    rw [Namespace.findsOnly_iff, h.kind?_eq, if_pos ht]
  have hchildren : ∀ t, s'.provider.children t = s'.childrenAt (s.locate t) :=
    fun t => congrArg s'.childrenAt (hlocate t)
  have hne : top ≠ l := by
    rintro rfl
    exact h.beyond_self.2 (List.suffix_refl _)
  constructor
  case above => exact ⟨h.onWay, hne, h.directory⟩
  case free => exact h.free
  case findsEntry =>
    rintro t rfl
    simpa [kindOnWay] using hfinds t h.beyond_self
  case findsAbove =>
    intro t ht
    obtain ⟨hbeyond, hother⟩ := h.beyond_above ht
    simpa [kindOnWay, hother] using hfinds t hbeyond
  case findsOther =>
    intro t ht
    exact h.growsTo.find_eq (by rw [h.kind?_eq, if_neg ht])
  case listsTop =>
    rintro t rfl
    rw [hchildren]
    exact h.childrenAt_onWay (.inl rfl) hne
  case listsAbove =>
    intro t ht
    obtain ⟨hbeyond, hother⟩ := h.beyond_above ht
    obtain ⟨name, hname, hlist⟩ := h.childrenAt_onWay (.inr hbeyond) hother
    have hnone := h.isTree.childrenAt_eq_nil (l := s.locate t) (by rw [h.free _ hbeyond]; simp)
    refine ⟨name, hname, ?_⟩
    rw [hchildren, hlist, hnone, List.nil_append]
  case listsEntry =>
    rintro t rfl
    rw [hchildren]
    exact h.childrenAt_self
  case listsOther =>
    intro t htop hbeyond
    rw [hchildren]
    exact h.childrenAt_other htop hbeyond

/-! ## Additions that succeed -/

/-- **What an addition of an entry of kind `k` at a path leads to** when it succeeds. -/
structure Namespace.Added (s s' : Namespace) (path : Text) (k : Kind) : Prop where
  /-- The entry is what is found at every path that means the same. -/
  found : ∀ t, s.normalize t = s.normalize path →
    s'.FindsOnly t ⟨s.normalize path, k == .directory⟩
  /-- If it was there already, nothing changes. -/
  kept : (s.kind? (s.locate path)).isSome → s' = s
  /-- Otherwise it is made, with the directories above it that are missing. -/
  made : s.kind? (s.locate path) = none → ∃ top, s.Gains s' top (s.locate path) k

/-- **An addition is known by what is where behind it.** -/
theorem Namespace.Reachable.added (hs : s.Reachable) (hgrow : s.GrowsTo s') (hs' : s'.IsTree)
    (hkept : (s.kind? (s.locate path)).isSome → s' = s)
    (hkind : ∀ x k', s'.kind? x = some k' ↔ s.kind? x = some k' ∨
      (k' = .directory ∧ x <:+ (s.locate path).tail) ∨ (k' = k ∧ x = s.locate path)) :
    s.Added s' path k := by
  obtain ⟨htree, hcwd⟩ := hs.isTree
  have hnames : ∀ t, ∀ name ∈ s.locate t, IsName name :=
    locateFrom_isName (htree.isName_of_kind? hcwd)
  refine ⟨fun t ht => ?_, hkept, fun hnew => ?_⟩
  · have hplace : s'.locate t = s.locate path := by
      rw [hgrow.locate]
      exact text_inj (hnames t) (hnames path) ht
    have hfinds : s'.FindsOnly t (Node.entry ⟨s'.locate t, k⟩) := by
      rw [Namespace.findsOnly_iff, hplace, hkind]
      exact .inr (.inr ⟨rfl, rfl⟩)
    rwa [hplace] at hfinds
  · obtain ⟨top, halong⟩ := hgrow.exists_growsAlong htree hs' hnew hkind
    exact ⟨top, halong.gains⟩

/-- A directory that is there is not added again. -/
theorem Namespace.eq_of_addDirectoryAt (h : s.addDirectoryAt l = .ok s') (hl : (s.kind? l).isSome) :
    s' = s := by
  unfold Namespace.addDirectoryAt at h
  split at h
  · cases h
  · cases h
    cases l with
    | nil => rfl
    | cons name l => rw [Namespace.withDirectory, if_pos hl]

/-- Nor is a file. -/
theorem Namespace.eq_of_addFileAt (h : s.addFileAt l = .ok s') (hl : (s.kind? l).isSome) :
    s' = s := by
  unfold Namespace.addFileAt at h
  split at h
  · cases h
  · cases h
    rfl
  · rename_i hnone
    rw [hnone] at hl
    cases hl

/-- **Additions that succeed change exactly what they must.** The entry that an addition in place
returns is what is found afterwards at every path that means the same. If it was there before, nothing
changes. Otherwise it is made, together with the directories above it that are missing; each of these
lists the next one on the way, the deepest directory that was there lists one further entry at its end,
and whatever else is looked up or listed stays as it was. -/
theorem Namespace.Reachable.successful_additions (hs : s.Reachable) (path : Text) :
    (∀ s', s.addDirectory path = .ok s' →
      (makeDirectory path).run s = .ok ⟨s.normalize path, true⟩ s' ∧ s.Added s' path .directory) ∧
    ∀ s', s.addFile path = .ok s' →
      (makeFile path).run s = .ok ⟨s.normalize path, false⟩ s' ∧ s.Added s' path .file := by
  obtain ⟨htree, hcwd⟩ := hs.isTree
  have hnames : ∀ name ∈ s.locate path, IsName name :=
    locateFrom_isName (htree.isName_of_kind? hcwd) path
  constructor
  · intro s' h
    refine ⟨by rw [run_makeDirectory, h]; rfl, ?_⟩
    refine hs.added (Namespace.growsTo_of_addDirectoryAt h) (htree.addDirectoryAt hnames h).1
      (Namespace.eq_of_addDirectoryAt h) fun x k' => ?_
    rw [htree.kind?_addDirectoryAt hnames h, suffix_iff_eq_or_tail, and_or_left]
    exact or_congr_right or_comm
  · intro s' h
    refine ⟨by rw [run_makeFile, h]; rfl, ?_⟩
    exact hs.added (Namespace.growsTo_of_addFileAt h) (htree.addFileAt hnames h).1
      (Namespace.eq_of_addFileAt h) fun x k' => htree.kind?_addFileAt hnames h

/-- In `/d` the file `a/../b/c` is made with the directory above it, and it is what is found at
`/d/b//c`. -/
theorem Namespace.small_successful_additions :
    ∃ s', Namespace.small.addFile "a/../b/c".toList = .ok s' ∧
      (makeFile "a/../b/c".toList).run Namespace.small = .ok ⟨"/d/b/c".toList, false⟩ s' ∧
      s'.FindsOnly "/d/b//c".toList ⟨"/d/b/c".toList, false⟩ ∧
      ∃ top, Namespace.small.Gains s' top [['c'], ['b'], ['d']] .file := by
  obtain ⟨s', hadd⟩ : ∃ s', Namespace.small.addFile "a/../b/c".toList = .ok s' := ⟨_, rfl⟩
  obtain ⟨hrun, hadded⟩ :=
    (Namespace.reachable_small.successful_additions "a/../b/c".toList).2 s' hadd
  exact ⟨s', hadd, hrun, hadded.found "/d/b//c".toList (by decide), hadded.made (by decide)⟩

end PathGlob
