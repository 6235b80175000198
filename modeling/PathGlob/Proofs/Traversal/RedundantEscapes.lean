import PathGlob.Proofs.Cuts
import PathGlob.Proofs.Namespace.Walks
import PathGlob.Proofs.Segment.RedundantEscapes
import PathGlob.Proofs.Traversal.EscapeModes
import PathGlob.Proofs.Walk.Losses

/-! # Redundant escapes
A backslash in front of a letter, a digit or a dot changes nothing to what a pattern means, and hardly
anything to what its walk finds: the directory itself and its parent are tried for a segment with a
wildcard whose text begins with a dot, and not for one that begins with an escaped dot.

* **`Respelled`** — a pattern and the same one with a redundant escape.
* **`Respelled.next`** — their next parts; **`forall₂_startJobs_redundant`** — their first jobs.
* **`trails_respelled`** — the walk of the second pattern trails behind that of the first one.
* **`Namespace.Reachable.yields_redundant_escape`** — the main statement. -/

namespace PathGlob

variable {ε : Type} {p : Provider ε} {fs : Flags} {c d : Char} {a b t t' u : Text} {s : Scope}

/-! ## Respelled patterns -/

/-- **A pattern and the same one with a redundant escape**: in front of the character `c` behind which
`b` is left. Behind it the patterns are the same. -/
inductive Respelled (fs : Flags) (c : Char) (b : Text) : Text → Text → Prop
  /-- The escape is left behind. -/
  | same {t : Text} (h : t.length ≤ b.length) : Respelled fs c b t t
  /-- The escape is still ahead. -/
  | escaped {a : Text} (ha : fs.Whole a) : Respelled fs c b (a ++ c :: b) (a ++ '\\' :: c :: b)

section

variable (he : fs.escapes = true) (hc : IsOrdinary c)

include he hc

omit he in
/-- The marks of the first pattern. -/
theorem Flags.Whole.marks_ordinary (ha : fs.Whole a) (b : Text) :
    marks fs.escapes (a ++ c :: b) = marks fs.escapes a ++ .plain :: marks fs.escapes b := by
  rw [ha.marks_append, marks_cons_of_ne (hc.ne (by decide)), hc.ofChar_mark]

omit hc in
/-- Those of the second one have one plain mark more. -/
theorem Flags.Whole.marks_escaped (ha : fs.Whole a) (b : Text) :
    marks fs.escapes (a ++ '\\' :: c :: b) =
      marks fs.escapes a ++ .plain :: .plain :: marks fs.escapes b := by
  rw [ha.marks_append, marks_escape he]

/-- Both have a wildcard or none has. -/
theorem Respelled.isWild_eq (h : Respelled fs c b t t') : fs.isWild t = fs.isWild t' := by
  cases h with
  | same => rfl
  | escaped ha => simp [Flags.isWild, ha.marks_ordinary hc, ha.marks_escaped he]

/-- Both have a separator or none has. -/
theorem Respelled.separator_iff (h : Respelled fs c b t t') :
    Mark.separator ∈ marks fs.escapes t ↔ Mark.separator ∈ marks fs.escapes t' := by
  cases h with
  | same => rfl
  | escaped ha => simp [ha.marks_ordinary hc, ha.marks_escaped he]

/-- Both have a separator in front of the first wildcard or none has. -/
theorem Respelled.separator_front_iff (h : Respelled fs c b t t') :
    Mark.separator ∈ beforeWildcard (marks fs.escapes t) ↔
      Mark.separator ∈ beforeWildcard (marks fs.escapes t') := by
  cases h with
  | same => rfl
  | @escaped a ha =>
    rw [ha.marks_ordinary hc, ha.marks_escaped he]
    by_cases hw : Mark.wildcard ∈ marks fs.escapes a
    · rw [beforeWildcard_append_of_mem hw, beforeWildcard_append_of_mem hw]
    · rw [beforeWildcard_append hw, beforeWildcard_append hw]
      simp [beforeWildcard]

/-- As paths they say the same. -/
theorem Respelled.queryPath_eq (hs : s.flags = fs) (h : Respelled fs c b t t') :
    s.queryPath t = s.queryPath t' := by
  cases h with
  | same => rfl
  | escaped ha =>
    rw [Scope.queryPath_eq, Scope.queryPath_eq, hs, ha, ha, Flags.plainText_cons (hc.ne (by decide)),
      Flags.plainText_escape he]

/-- As segments they match the same names. -/
theorem Respelled.nameMatches_eq (h : Respelled fs c b t t') (name : Text) :
    nameMatches fs t name = nameMatches fs t' name := by
  cases h with
  | same => rfl
  | escaped ha => exact nameMatches_redundant he hc ha b name

omit he

/-- No `**` has a redundant escape. -/
theorem Respelled.eq_doubleStar_iff (h : Respelled fs c b t t') : t = doubleStar ↔ t' = doubleStar := by
  cases h with
  | same => rfl
  | @escaped a _ =>
    have hplain : a ++ c :: b ≠ doubleStar :=
      ne_doubleStar_of_mem_of_ne (c := c) (by simp) (hc.ne (by decide))
    have hescape : a ++ '\\' :: c :: b ≠ doubleStar :=
      ne_doubleStar_of_mem_of_ne (c := '\\') (by simp) (by decide)
    simp [hplain, hescape]

omit hc in
/-- The escape is still ahead if the character is. -/
theorem Respelled.eq_of_front (h : Respelled fs c b (c :: b) t') : t' = '\\' :: c :: b := by
  generalize hw : c :: b = w at h
  cases h with
  | same hlen =>
    rw [← hw, List.length_cons] at hlen
    omega
  | @escaped a _ =>
    cases a with
    | nil => rfl
    | cons d a =>
      have hlen := congrArg List.length hw
      rw [List.cons_append, List.length_cons, List.length_cons, List.length_append,
        List.length_cons] at hlen
      omega

/-- The escape stands at the front if only one of the patterns begins with a backslash. -/
theorem Respelled.eq_of_fronts (h : Respelled fs c b t t') (ht : t.head? = some c)
    (ht' : t'.head? = some '\\') : t = c :: b := by
  have hne : c ≠ '\\' := hc.ne (by decide)
  cases h with
  | same => exact absurd (Option.some.inj (ht.symm.trans ht')) hne
  | @escaped a _ =>
    cases a with
    | nil => rfl
    | cons d a => exact absurd (Option.some.inj (ht.symm.trans ht')) hne

omit hc in
/-- They end alike. -/
theorem Respelled.endsIn_eq (h : Respelled fs c b t t') (d : Char) : endsIn d t = endsIn d t' := by
  cases h with
  | same => rfl
  | escaped => simp [endsIn, List.getLast?_append, List.getLast?_cons]

/-- Both name their starting point or none does. -/
theorem Respelled.isAnchored_eq (h : Respelled fs c b t t') : isAnchored t = isAnchored t' := by
  cases h with
  | same => rfl
  | @escaped a _ =>
    have hslash := hc.ne (d := '/') (by decide)
    have hcolon := hc.ne (d := ':') (by decide)
    cases a with
    | nil => simp [isAnchored, beginsWith, List.isPrefixOf, hslash.symm, hcolon.symm]
    | cons d a => simp [isAnchored, beginsWith, List.isPrefixOf, hcolon.symm]

end

/-! ## Parts -/

/-- Parts of respelled patterns. -/
structure Part.Respelled (fs : Flags) (c : Char) (b : Text) (q q' : Part) : Prop where
  /-- The escape stands in the text of the part or not. -/
  text : ∃ y, PathGlob.Respelled fs c y q.text q'.text
  /-- Both have a wildcard or none has. -/
  wild : q.wild = q'.wild
  /-- The patterns that remain are respelled, too, or none remains. -/
  rest : Option.Rel (PathGlob.Respelled fs c b) q.rest? q'.rest?

section

variable (he : fs.escapes = true) (hc : IsOrdinary c)

include he hc

/-- **Respelled patterns are cut alike** at a separator. -/
theorem Respelled.split (ht : fs.Whole t) (hd : isSeparator d = true)
    (h : Respelled fs c b (t ++ d :: u) t') :
    ∃ t₁ u₁ y, t' = t₁ ++ d :: u₁ ∧ fs.Whole t₁ ∧ Respelled fs c y t t₁ ∧ Respelled fs c b u u₁ := by
  have hcd : c ≠ d := by
    rintro rfl
    have hmark := Mark.ofChar_eq_separator_iff.2 hd
    rw [hc.ofChar_mark] at hmark
    cases hmark
  have hback : d ≠ '\\' := by
    rintro rfl
    cases hd
  generalize hw : t ++ d :: u = w at h
  cases h with
  | same hlen =>
    subst hw
    rw [List.length_append, List.length_cons] at hlen
    exact ⟨t, u, t, rfl, ht, .same (Nat.le_refl _), .same (by omega)⟩
  | @escaped a ha =>
    rcases List.append_eq_append_iff.1 hw with ⟨z, rfl, hz⟩ | ⟨y, rfl, hy⟩
    · -- the escape stands behind the separator
      cases z with
      | nil => exact absurd (List.cons.inj hz).1.symm hcd
      | cons d' z =>
        rw [List.cons_append, List.cons.injEq] at hz
        obtain ⟨rfl, rfl⟩ := hz
        rw [List.append_cons] at ha
        have hz' := ha.of_append (ht.append (Flags.Whole.nil.cons hback))
        exact ⟨t, z ++ '\\' :: c :: b, t, by simp, ht, .same (Nat.le_refl _), .escaped hz'⟩
    · -- the escape stands in front of the separator
      cases y with
      | nil => exact absurd (List.cons.inj hy).1 hcd
      | cons c' y =>
        rw [List.cons_append, List.cons.injEq] at hy
        obtain ⟨rfl, rfl⟩ := hy
        rw [List.append_cons] at ht
        have hy' := ht.of_append (ha.append (Flags.Whole.nil.cons (hc.ne (by decide))))
        refine ⟨a ++ '\\' :: c :: y, u, y, by simp, ha.append (hy'.escape he), .escaped ha, .same ?_⟩
        rw [List.length_append, List.length_cons]
        omega

/-- **The next parts of respelled patterns** are such parts. -/
theorem Respelled.next (h : Respelled fs c b t t') :
    Part.Respelled fs c b (Part.next fs.escapes t) (Part.next fs.escapes t') := by
  suffices hcut : ∀ q, Cuts fs t q → ∃ q', Cuts fs t' q' ∧ Part.Respelled fs c b q q' by
    obtain ⟨q', hq', hqq'⟩ := hcut _ (cuts_next fs t)
    rwa [hq'.next_eq]
  intro q hq
  cases hq with
  | rest hw => exact ⟨_, .rest (h.isWild_eq he hc ▸ hw), ⟨b, h⟩, rfl, .none⟩
  | lead ht hd hw hu hfirst =>
    obtain ⟨t₁, u₁, y, rfl, ht₁, htext, hrest⟩ := h.split he hc ht hd
    refine ⟨_, .lead ht₁ hd (htext.isWild_eq he hc ▸ hw) (hrest.isWild_eq he hc ▸ hu) ?_, ⟨y, htext⟩,
      rfl, .some hrest⟩
    rwa [← hrest.separator_front_iff he hc]
  | last hw hs =>
    refine ⟨_, .last (h.isWild_eq he hc ▸ hw) ?_, ⟨b, h⟩, rfl, .none⟩
    rwa [← h.separator_iff he hc]
  | segment ht hd hw hs =>
    obtain ⟨t₁, u₁, y, rfl, ht₁, htext, hrest⟩ := h.split he hc ht hd
    refine ⟨_, .segment ht₁ hd (htext.isWild_eq he hc ▸ hw) ?_, ⟨y, htext⟩, rfl, .some hrest⟩
    rwa [← htext.separator_iff he hc]

/-- A redundant escape changes whether a part begins with a dot only if the pattern begins with that
dot. -/
theorem Respelled.isHidden_part (h : Respelled fs c b t t') (hfront : t = c :: b → c ≠ '.') :
    isHidden (Part.next fs.escapes t).text = isHidden (Part.next fs.escapes t').text := by
  obtain ⟨y, htext⟩ := (h.next he hc).text
  have hleft : (Part.next fs.escapes t).text <+: t := List.take_prefix _ _
  have hright : (Part.next fs.escapes t').text <+: t' := List.take_prefix _ _
  generalize (Part.next fs.escapes t).text = q at htext hleft
  generalize (Part.next fs.escapes t').text = q' at htext hright
  cases htext with
  | same => rfl
  | @escaped x _ =>
    cases x with
    | cons d x => rfl
    | nil =>
      -- the escape stands at the front of the part, so it stands at the front of the pattern
      have hleft : t.head? = some c := by
        obtain ⟨v, rfl⟩ := hleft
        rfl
      have hright : t'.head? = some '\\' := by
        obtain ⟨v, rfl⟩ := hright
        rfl
      have hdot := hfront (h.eq_of_fronts hc hleft hright)
      simp [isHidden, hdot]

end

/-! ## Jobs -/

/-- Paths that mean the same are continued in the same way. -/
theorem SamePath.append {s t : Scope} {x x' y y' : Text} (h : SamePath s t x x')
    (hy : SamePath s t y y') : SamePath s t (x ++ y) (x' ++ y') where
  query := by
    have hx := h.query
    have hy := hy.query
    rw [Scope.queryPath_eq, Scope.queryPath_eq] at hx hy ⊢
    rw [h.left, h.right, hx, hy]
  left := h.left.append hy.left
  right := h.right.append hy.right

/-- What says the same is joined to paths that mean the same, even if it ends inside an escape. -/
theorem SamePath.query_joinPath {s t : Scope} {x x' y y' : Text} (h : SamePath s t x x')
    (hy : s.queryPath y = t.queryPath y') :
    s.queryPath (PathGlob.joinPath x y) = t.queryPath (PathGlob.joinPath x' y') := by
  have hx := h.query
  rw [Scope.queryPath_eq, Scope.queryPath_eq] at hx hy ⊢
  rw [h.left.plainText_joinPath, h.right.plainText_joinPath, hx, hy]

/-- **Jobs of two walks for respelled patterns**, at paths that mean the same. -/
inductive Job.Respelled (fs : Flags) (c : Char) (b : Text) : Job ε → Job ε → Prop
  /-- The visits of a directory. -/
  | visit {s : Scope} {base base' w w' : Text} {again : Bool} (hs : s.flags = fs)
    (hb : SamePath s s base base') (hw : PathGlob.Respelled fs c b w w') :
    Respelled fs c b (.visit s base w again) (.visit s base' w' again)
  /-- The listings of a directory. -/
  | enumerate {s : Scope} {base base' w w' : Text} (hs : s.flags = fs)
    (hb : SamePath s s base base') (hw : PathGlob.Respelled fs c b w w') :
    Respelled fs c b (.enumerate s base w) (.enumerate s base' w')
  /-- The tests of a path. -/
  | candidate {s : Scope} {path path' : Text} (hq : s.queryPath path = s.queryPath path') :
    Respelled fs c b (.candidate s path) (.candidate s path')
  /-- The same test for a file. -/
  | tryFile (path : Text) : Respelled fs c b (.tryFile path) (.tryFile path)
  /-- The same entry that is ready. -/
  | deliver (e : ε) : Respelled fs c b (.deliver e) (.deliver e)

/-- **Whether the directory itself and its parent are tried for a part in any case**, without a dot at its
front: it is the last one, and hidden names match wildcards. -/
def Part.triesAnyway (fs : Flags) (part : Part) : Bool := part.rest?.isNone && fs.has .dotMatch

/-- They are tried if the part begins with a dot, and in that case. -/
theorem triesSpecials_eq (fs : Flags) (part : Part) :
    triesSpecials fs part = (isHidden part.text || part.triesAnyway fs) := rfl

/-- Without a dot at the front of a pattern there is none at the front of its next part. -/
theorem Part.isHidden_next {e : Bool} (h : isHidden t = false) :
    isHidden (Part.next e t).text = false := by
  have htext : (Part.next e t).text = t.take (partEnd (marks e t)).1 := rfl
  rw [htext, isHidden, List.head?_take]
  split
  · rfl
  · exact h

/-- **The jobs that are lost** with an escape in front of `c`: those for the directory itself and its
parent, if only a dot at the front of the segment has them tried. -/
def lostReferences (c : Char) (b : Text) : Job ε → List (Job ε)
  | .enumerate s base w =>
    if w = c :: b ∧ c = '.' ∧ (Part.next s.flags.escapes w).triesAnyway s.flags = false then
      specialJobs s base w
    else []
  | _ => []

section

variable (he : s.flags.escapes = true) (hc : IsOrdinary c) {base base' : Text}

include he hc

omit he hc in
/-- Going on behind parts that mean the same. -/
theorem respelled_continueAt {rest? rest?' : Option Text}
    (hr : Option.Rel (Respelled s.flags c b) rest? rest?') {path path' : Text}
    (hq : s.queryPath path = s.queryPath path')
    (hpath : ∀ r r', rest? = some r → rest?' = some r' → SamePath s s path path') :
    Job.Respelled s.flags c b (continueAt s path rest? : Job ε) (continueAt s path' rest?') := by
  cases hr with
  | none => exact .candidate hq
  | some hrest => exact .visit rfl (hpath _ _ rfl rfl) hrest

omit he hc in
/-- Nothing may remain as well. -/
theorem respelled_getD {rest? rest?' : Option Text} (hr : Option.Rel (Respelled fs c b) rest? rest?') :
    Respelled fs c b (rest?.getD []) (rest?'.getD []) := by
  cases hr with
  | none => exact .same (Nat.zero_le _)
  | some hrest => exact hrest

/-- The jobs in a directory correspond. -/
theorem forall₂_visitJobs_redundant (hb : SamePath s s base base') (h : Respelled s.flags c b t t')
    (again : Bool) :
    List.Forall₂ (Job.Respelled s.flags c b) (visitJobs s base t again : List (Job ε))
      (visitJobs s base' t' again) := by
  have hpart := h.next he hc
  obtain ⟨y, htext⟩ := hpart.text
  cases hw : (Part.next s.flags.escapes t).wild with
  | false =>
    rw [visitJobs_literal hw, visitJobs_literal (hpart.wild ▸ hw)]
    have hquery := htext.queryPath_eq he hc (s := s) rfl
    refine .cons (respelled_continueAt hpart.rest (hb.query_joinPath hquery) ?_) .nil
    intro r r' hr hr'
    exact hb.joinPath ⟨hquery, Part.whole_text hr, Part.whole_text hr'⟩
  | true =>
    rw [visitJobs_wild hw, visitJobs_wild (hpart.wild ▸ hw)]
    simp only [htext.eq_doubleStar_iff hc]
    refine List.rel_append ?_ (.cons (.enumerate rfl hb h) .nil)
    split
    · exact .cons (.visit rfl hb (respelled_getD hpart.rest)) .nil
    · exact .nil

/-- The jobs for a listed name correspond. -/
theorem forall₂_nameJobs_redundant (hb : SamePath s s base base') (h : Respelled s.flags c b t t')
    (name : Text) :
    List.Forall₂ (Job.Respelled s.flags c b) (nameJobs s base t name : List (Job ε))
      (nameJobs s base' t' name) := by
  have hpart := h.next he hc
  obtain ⟨y, htext⟩ := hpart.text
  have hpath := hb.joinPath (samePath_nameText s s name)
  unfold nameJobs
  simp only [htext.nameMatches_eq he hc, htext.eq_doubleStar_iff hc]
  split
  · refine .cons (respelled_continueAt hpart.rest hpath.query fun _ _ _ _ => hpath) ?_
    split
    · exact .cons (.visit rfl hpath h) .nil
    · exact .nil
  · exact .nil

/-- The jobs for the directory itself and its parent correspond, if they are tried in both walks. -/
theorem forall₂_specialJobs_redundant (hb : SamePath s s base base')
    (h : Respelled s.flags c b t t')
    (htries : triesSpecials s.flags (Part.next s.flags.escapes t) =
      triesSpecials s.flags (Part.next s.flags.escapes t')) :
    List.Forall₂ (Job.Respelled s.flags c b) (specialJobs s base t : List (Job ε))
      (specialJobs s base' t') := by
  have hpart := h.next he hc
  obtain ⟨y, htext⟩ := hpart.text
  have hmatches : nameMatches s.flags (Part.next s.flags.escapes t).text =
      nameMatches s.flags (Part.next s.flags.escapes t').text :=
    funext (htext.nameMatches_eq he hc)
  unfold specialJobs
  simp only [htries, hmatches]
  split
  · rw [List.forall₂_map_left_iff, List.forall₂_map_right_iff, List.forall₂_same]
    intro name hname
    have hback := (not_mem_of_mem_references (List.mem_of_mem_filter hname)).2
    have hpath := hb.joinPath (SamePath.of_not_mem hback)
    exact respelled_continueAt hpart.rest hpath.query fun _ _ _ _ => hpath
  · exact .nil

/-! ## Trailing behind -/

/-- **The jobs for the directory itself and its parent correspond, but for those that are lost.** -/
theorem specialJobs_redundant (hb : SamePath s s base base') (h : Respelled s.flags c b t t') :
    (lostReferences c b (.enumerate s base t : Job ε) = specialJobs s base t ∧
        (specialJobs s base' t' : List (Job ε)) = []) ∨
      lostReferences c b (.enumerate s base t : Job ε) = [] ∧
        List.Forall₂ (Job.Respelled s.flags c b) (specialJobs s base t : List (Job ε))
          (specialJobs s base' t') := by
  have hany : (Part.next s.flags.escapes t).triesAnyway s.flags =
      (Part.next s.flags.escapes t').triesAnyway s.flags := by
    have hrest := (h.next he hc).rest
    unfold Part.triesAnyway
    generalize (Part.next s.flags.escapes t).rest? = r at hrest
    generalize (Part.next s.flags.escapes t').rest? = r' at hrest
    cases hrest <;> rfl
  by_cases hlost : t = c :: b ∧ c = '.' ∧ (Part.next s.flags.escapes t).triesAnyway s.flags = false
  · refine .inl ⟨if_pos hlost, if_neg ?_⟩
    obtain ⟨rfl, -, hnot⟩ := hlost
    obtain rfl := h.eq_of_front
    rw [triesSpecials_eq, ← hany, hnot, Part.isHidden_next rfl]
    simp
  · refine .inr ⟨if_neg hlost, forall₂_specialJobs_redundant he hc hb h ?_⟩
    rw [triesSpecials_eq, triesSpecials_eq, ← hany]
    cases hnot : (Part.next s.flags.escapes t).triesAnyway s.flags with
    | true => simp
    | false => rw [h.isHidden_part he hc fun ht hdot => hlost ⟨ht, hdot, hnot⟩]

end

/-- **The walk of a pattern with a redundant escape trails behind that of the pattern without it.** -/
theorem trails_respelled (he : fs.escapes = true) (hc : IsOrdinary c) (b : Text) (p : Provider ε) :
    Trails p (Job.Respelled fs c b) (lostReferences c b) where
  handsOut h := by
    cases h with
    | deliver e => rfl
    | _ => simp
  next {t u} h := by
    cases h with
    | @visit s base base' w w' again hs hb hw =>
      subst hs
      refine ⟨_, (List.append_nil _).symm, ?_⟩
      rw [Job.next_visit, Job.next_visit, hb.query]
      split
      · exact forall₂_visitJobs_redundant he hc hb hw again
      · exact .nil
    | @enumerate s base base' w w' hs hb hw =>
      subst hs
      have hnames : List.Forall₂ (Job.Respelled s.flags c b)
          (((p.children (s.queryPath base)).map p.entryName).flatMap (nameJobs s base w) :
            List (Job ε))
          (((p.children (s.queryPath base)).map p.entryName).flatMap (nameJobs s base' w')) :=
        forall₂_flatMap fun name _ => forall₂_nameJobs_redundant he hc hb hw name
      rw [Job.next_enumerate, Job.next_enumerate, ← hb.query]
      rcases specialJobs_redundant he hc hb hw with ⟨hlost, hnone⟩ | ⟨hlost, hspecials⟩
      · rw [hlost, hnone, List.append_nil]
        exact ⟨_, rfl, hnames⟩
      · rw [hlost]
        exact ⟨_, (List.append_nil _).symm, List.rel_append hnames hspecials⟩
    | @candidate s path path' hq =>
      have hpath : s.candidatePath path = s.candidatePath path' := by
        unfold Scope.candidatePath
        rw [hq]
      refine ⟨_, (List.append_nil _).symm, ?_⟩
      cases hd : p.findDirectory (s.candidatePath path) with
      | some e =>
        rw [Job.next_candidate_of_some hd, Job.next_candidate_of_some (hpath ▸ hd)]
        exact .cons (.deliver e) .nil
      | none =>
        rw [Job.next_candidate_of_none hd, Job.next_candidate_of_none (hpath ▸ hd), hpath]
        split
        · exact .nil
        · exact .cons (.tryFile _) .nil
    | tryFile path =>
      refine ⟨_, (List.append_nil _).symm, ?_⟩
      rw [Job.next_tryFile, List.forall₂_map_left_iff, List.forall₂_map_right_iff, List.forall₂_same]
      exact fun e _ => .deliver e
    | deliver e => exact ⟨[], rfl, .nil⟩
  lost_subset t := by
    cases t with
    | enumerate s base w =>
      rw [Job.next_enumerate, lostReferences]
      split
      · exact List.subset_append_right _ _
      · exact List.nil_subset _
    | _ => exact List.nil_subset _

/-! ## Searches -/

/-- **The walks of respelled patterns begin with jobs that correspond.** -/
theorem forall₂_startJobs_redundant (he : fs.escapes = true) (hc : IsOrdinary c) (ha : fs.Whole a)
    (b : Text) :
    List.Forall₂ (Job.Respelled fs c b) (startJobs fs (a ++ c :: b) : List (Job ε))
      (startJobs fs (a ++ '\\' :: c :: b)) := by
  have h : Respelled fs c b (a ++ c :: b) (a ++ '\\' :: c :: b) := .escaped ha
  have hne : a ++ c :: b ≠ [] := by simp
  have hne' : a ++ '\\' :: c :: b ≠ [] := by simp
  have hstar : a ++ c :: b ≠ doubleStar :=
    ne_doubleStar_of_mem_of_ne (c := c) (by simp) (hc.ne (by decide))
  have hstar' : a ++ '\\' :: c :: b ≠ doubleStar := mt (h.eq_doubleStar_iff hc).2 hstar
  generalize a ++ c :: b = t at h hne hstar
  generalize a ++ '\\' :: c :: b = t' at h hne' hstar'
  have hcurrent : ∀ s, SamePath s s currentDirectory currentDirectory :=
    fun s => .of_not_mem (by decide)
  cases hanchored : isAnchored t with
  | false =>
    rw [startJobs_of_relative hne hstar hanchored,
      startJobs_of_relative hne' hstar' (h.isAnchored_eq hc ▸ hanchored), ← h.endsIn_eq]
    exact .cons (.visit rfl (hcurrent _) h) .nil
  | true =>
    have hanchored' := h.isAnchored_eq hc ▸ hanchored
    cases begins fs t with
    | literal hw =>
      rw [startJobs_anchored_literal hne hanchored hw,
        startJobs_anchored_literal hne' hanchored' (h.isWild_eq he hc ▸ hw), ← h.endsIn_eq]
      exact .cons (.candidate (h.queryPath_eq he hc rfl)) .nil
    | @lead t _ d ht hd hw hu hfirst =>
      obtain ⟨t₁, u₁, y, rfl, ht₁, htext, hrest⟩ := h.split he hc ht hd
      rw [startJobs_anchored_lead hanchored ht hd hw hu hfirst,
        startJobs_anchored_lead hanchored' ht₁ hd (htext.isWild_eq he hc ▸ hw)
          (hrest.isWild_eq he hc ▸ hu) (mt (hrest.separator_front_iff he hc).2 hfirst),
        ← h.endsIn_eq]
      have hback : '\\' ∉ [d] := by
        rw [List.mem_singleton]
        rintro rfl
        cases hd
      have hbase : ∀ s : Scope, s.flags = fs → SamePath s s (t ++ [d]) (t₁ ++ [d]) := by
        rintro s rfl
        exact .append ⟨htext.queryPath_eq he hc rfl, ht, ht₁⟩ (.of_not_mem hback)
      exact .cons (.visit rfl (hbase _ rfl) hrest) .nil
    | wild hw hfirst =>
      rw [startJobs_wild_front hstar hw hfirst,
        startJobs_wild_front hstar' (h.isWild_eq he hc ▸ hw)
          (mt (h.separator_front_iff he hc).2 hfirst), ← h.endsIn_eq]
      exact .cons (.visit rfl (hcurrent _) h) .nil

/-- **Something is lost behind a job** if the directory itself or its parent would be tried for the dot in
front of `b` only, and lead to an entry. -/
def LosesReference (p : Provider ε) (b : Text) (t : Job ε) : Prop :=
  ∃ s base, t.Leads p (.enumerate s base ('.' :: b)) ∧
    (Part.next s.flags.escapes ('.' :: b)).triesAnyway s.flags = false ∧
    ∃ u ∈ specialJobs s base ('.' :: b), ∃ e, Finds p u e

/-- Only with an escaped dot is something lost. -/
theorem losesNothing_lostReferences_iff {t : Job ε} :
    LosesNothing p (lostReferences c b) t ↔ ¬(c = '.' ∧ LosesReference p b t) := by
  constructor
  · rintro h ⟨rfl, s, base, hleads, hany, u, hu, e, hfinds⟩
    exact h _ hleads u (by rwa [lostReferences, if_pos ⟨rfl, rfl, hany⟩]) e hfinds
  · intro h u hleads v hv e hfinds
    cases u with
    | enumerate s base w =>
      rw [lostReferences] at hv
      split at hv
      · rename_i hlost
        obtain ⟨rfl, rfl, hany⟩ := hlost
        exact h ⟨rfl, s, base, hleads, hany, v, hv, e, hfinds⟩
      · cases hv
    | _ => cases hv

/-- **A redundant escape changes hardly anything.** For every reachable namespace, with a backslash in
front of an unescaped letter, digit or dot the walk of a pattern yields a part of what it yields
without it, in the same order; and it yields all of that exactly unless the character is a dot for which
alone the directory itself or its parent is tried, and one of these leads to an entry. -/
theorem Namespace.Reachable.yields_redundant_escape {s : Namespace} (hs : s.Reachable)
    (he : fs.escapes = true) (hc : IsOrdinary c) (ha : fs.Whole a) (b : Text) :
    ∃ plain escaped, Yields s.provider (startJobs fs (a ++ c :: b)) plain ∧
      Yields s.provider (startJobs fs (a ++ '\\' :: c :: b)) escaped ∧
      escaped.Sublist plain ∧
      (escaped = plain ↔
        ¬(c = '.' ∧ ∃ t ∈ startJobs fs (a ++ c :: b), LosesReference s.provider b t)) := by
  obtain ⟨plain, escaped, hplain, hescaped, hsub, hall⟩ :=
    (trails_respelled he hc b s.provider).findsAllIff (forall₂_startJobs_redundant he hc ha b)
      (hs.ends_startJobs fs (a ++ c :: b))
  refine ⟨plain, escaped, hplain, hescaped, hsub, hall.trans ?_⟩
  simp only [losesNothing_lostReferences_iff]
  constructor
  · rintro h ⟨hdot, t, ht, hlost⟩
    exact h t ht ⟨hdot, hlost⟩
  · rintro h t ht ⟨hdot, hlost⟩
    exact h ⟨hdot, t, ht, hlost⟩

/-- In the small namespace `.*` finds the current directory and its parent, and with an escape in front of
the dot these are lost. -/
theorem Namespace.small_yields_redundant_escape :
    Flags.empty.escapes = true ∧ IsOrdinary '.' ∧ Flags.empty.Whole [] ∧
      ∃ plain escaped, Yields Namespace.small.provider (startJobs Flags.empty ['.', '*']) plain ∧
        Yields Namespace.small.provider (startJobs Flags.empty ['\\', '.', '*']) escaped ∧
        escaped.Sublist plain ∧
        (escaped = plain ↔ ¬('.' = '.' ∧
          ∃ t ∈ startJobs Flags.empty ['.', '*'], LosesReference Namespace.small.provider ['*'] t)) :=
  ⟨rfl, by decide, .nil,
    Namespace.reachable_small.yields_redundant_escape rfl (by decide) (a := []) .nil ['*']⟩

/-- **A redundant escape may lose entries**, if it stands in front of a dot. -/
theorem Namespace.small_redundant_escape_misses :
    Namespace.small.Reachable ∧ Flags.empty.escapes = true ∧ IsOrdinary '.' ∧
      Yields Namespace.small.provider (startJobs Flags.empty ['.', '*'])
        [⟨['/', 'd'], true⟩, ⟨['/'], true⟩] ∧
      Yields Namespace.small.provider (startJobs Flags.empty ['\\', '.', '*']) [] :=
  ⟨Namespace.reachable_small, rfl, by decide, ⟨9, rfl, rfl⟩, ⟨9, rfl, rfl⟩⟩

end PathGlob
