import PathGlob.Proofs.Braces.Layout

/-! # Expansion by the grammar
A pattern is read character by character into a tree. The tree is always the one of what its tokens
leave open, so that no step of building is ever refused and the texts at the end are those that the
grammar gives.

* **`OpenGroups.braceTree?_eq`** — the tree of a pattern is that of its tokens.
* **`expandBraces_eq_grammar`** — the main statement. -/

namespace PathGlob

/-! ## Building along the tokens -/

/-- What building makes of an unescaped character is what its token opens or closes. -/
theorem OpenGroups.braceTree?_ofChar {escapes : Bool} {c : Char}
    (h : (escapes && c == '\\') = false) (r : Text) (o : OpenGroups (List BraceItem)) :
    braceTree? escapes (c :: r) o.tree =
      match o.step mergedBuilder (.ofChar c) with
      | some o' => braceTree? escapes r o'.tree
      | none => .ok none := by
  rcases o with ⟨outer, current⟩
  rw [braceTree?.eq_def]
  simp only [h, Bool.false_eq_true, if_false, BraceToken.ofChar]
  by_cases hopen : c = '\x7b'
  · rw [if_pos hopen, if_pos hopen, OpenGroups.tree_openGroup]
    rfl
  rw [if_neg hopen, if_neg hopen]
  by_cases hclose : c = '\x7d'
  · rw [if_pos hclose, if_pos hclose]
    cases outer with
    | nil => rfl
    | cons x outer =>
      rw [if_neg (by simp [OpenGroups.tree]), OpenGroups.tree_closeGroup]
      rfl
  rw [if_neg hclose, if_neg hclose]
  by_cases hcomma : c = ','
  · rw [if_pos hcomma]
    cases outer with
    | nil =>
      rw [if_neg (by simp [OpenGroups.tree]), OpenGroups.tree_addChar, hcomma]
      rfl
    | cons x outer =>
      rw [if_pos ⟨hcomma, by simp [OpenGroups.tree]⟩, OpenGroups.tree_nextBranch]
      rfl
  · rw [if_neg hcomma, if_neg (fun hc => hcomma hc.1), OpenGroups.tree_addChar]
    rfl

/-- An escaped character joins the sequence that is being read. -/
theorem OpenGroups.braceTree?_escape {escapes : Bool} {c : Char}
    (h : (escapes && c == '\\') = true) (d : Char) (r : Text) (o : OpenGroups (List BraceItem)) :
    braceTree? escapes (c :: d :: r) o.tree =
      braceTree? escapes r
        (OpenGroups.tree ⟨o.outer, mergedBuilder.text o.current (unescapeStructural d)⟩) := by
  rw [braceTree?.eq_def]
  simp only [h, if_true]
  exact congrArg (braceTree? escapes r) (OpenGroups.tree_addText o.outer o.current _)

/-- **The tree of a pattern** is that of what its tokens leave open; there is none if they close a
group that is not open, and no step is refused. -/
theorem OpenGroups.braceTree?_eq (escapes : Bool) (pattern : Text)
    (o : OpenGroups (List BraceItem)) :
    braceTree? escapes pattern o.tree =
      .ok ((o.run mergedBuilder (braceTokens escapes pattern)).map OpenGroups.tree) := by
  fun_induction braceTokens escapes pattern generalizing o with
  | case1 => rfl
  | case2 c =>
    by_cases hescape : (escapes && c == '\\') = true
    · -- a backslash at the very end
      obtain rfl : c = '\\' := by simpa using (Bool.and_eq_true_iff.1 hescape).2
      rw [braceTree?.eq_def]
      simp only [hescape, if_true]
      rw [OpenGroups.tree_addChar]
      rfl
    · rw [OpenGroups.braceTree?_ofChar (Bool.not_eq_true _ ▸ hescape), OpenGroups.run_cons]
      cases o.step mergedBuilder (.ofChar c) <;> rfl
  | case3 c d r hescape ih =>
    have htext : unescapeStructural d =
        if d ∈ [',', '\x7b', '\x7d'] then [d] else ['\\', d] := by
      simp [unescapeStructural]
    rw [OpenGroups.braceTree?_escape hescape, ih, OpenGroups.run_cons, htext]
    rfl
  | case4 c d r hescape ih =>
    rw [OpenGroups.braceTree?_ofChar (Bool.not_eq_true _ ▸ hescape), OpenGroups.run_cons]
    cases o.step mergedBuilder (.ofChar c) with
    | none => rfl
    | some o' => exact ih o'

/-! ## The texts of a pattern -/

section

variable {escapes : Bool} {pattern : Text}

/-- The texts of a pattern are those of the tree that its tokens lead to. -/
theorem braceExpansion_eq (escapes : Bool) (pattern : Text) :
    braceExpansion escapes pattern =
      .ok (match (OpenGroups.start mergedBuilder).run mergedBuilder (braceTokens escapes pattern) with
        | some o => if o.outer = [] then sequenceTexts o.current else []
        | none => []) := by
  rw [braceExpansion, ← OpenGroups.tree_start, OpenGroups.braceTree?_eq]
  cases (OpenGroups.start mergedBuilder).run mergedBuilder (braceTokens escapes pattern) with
  | none => rfl
  | some o => exact congrArg Except.ok o.alternatives_tree

/-- **A pattern stands for the texts of the sequence that it is read as.** -/
theorem braceExpansion_of_reads {xs : List BraceItem} (h : Reads (braceTokens escapes pattern) xs) :
    braceExpansion escapes pattern = .ok (sequenceTexts xs) := by
  have hitems := OpenGroups.run_map isHom_sequenceTexts (.start itemBuilder)
    (braceTokens escapes pattern)
  have hmerged := OpenGroups.run_map isHom_sequenceTexts_merged (.start mergedBuilder)
    (braceTokens escapes pattern)
  -- both kinds of sequences are read into the same texts
  rw [reads_iff_run.1 h] at hitems
  obtain ⟨⟨outer, ys⟩, hrun, hmap⟩ := Option.map_eq_some_iff.1 (hmerged.symm.trans hitems)
  simp only [OpenGroups.map, OpenGroups.mk.injEq, List.map_eq_nil_iff, List.map_nil] at hmap
  obtain ⟨rfl, htexts⟩ := hmap
  rw [braceExpansion_eq, hrun, ← htexts]
  rfl

/-- A pattern whose braces are not balanced stands for no text. -/
theorem braceExpansion_of_not_balanced (h : ¬ Balanced (braceTokens escapes pattern)) :
    braceExpansion escapes pattern = .ok [] := by
  rw [braceExpansion_eq]
  cases hrun : (OpenGroups.start mergedBuilder).run mergedBuilder (braceTokens escapes pattern) with
  | none => rfl
  | some o =>
    have houter : o.outer ≠ [] := by
      rcases o with ⟨outer, current⟩
      rintro rfl
      exact h ((balanced_iff_run mergedBuilder).2 ⟨current, hrun⟩)
    exact congrArg Except.ok (if_neg houter)

end

/-- **Brace expansion follows the grammar.** It always succeeds. If the braces of a pattern are not
balanced it stands for no text. Otherwise the pattern is read as a sequence of literals and groups in
exactly one way, and stands for the texts of this sequence. There is such a text in each case, so
that a pattern stands for no text exactly if its braces are not balanced. -/
theorem expandBraces_eq_grammar (escapes : Bool) (pattern : Text) :
    braceExpansion escapes pattern = .ok (expandBraces escapes pattern) ∧
      (¬ Balanced (braceTokens escapes pattern) → expandBraces escapes pattern = []) ∧
      (Balanced (braceTokens escapes pattern) →
        (∃! xs, Reads (braceTokens escapes pattern) xs) ∧
          ∀ xs, Reads (braceTokens escapes pattern) xs →
            expandBraces escapes pattern = sequenceTexts xs) ∧
      (expandBraces escapes pattern = [] ↔ ¬ Balanced (braceTokens escapes pattern)) := by
  by_cases hbalanced : Balanced (braceTokens escapes pattern)
  · obtain ⟨xs, hxs, hunique⟩ := hbalanced.existsUnique_reads
    have htexts := braceExpansion_of_reads hxs
    have hexpand : expandBraces escapes pattern = sequenceTexts xs := by
      rw [expandBraces, htexts]
      rfl
    refine ⟨by rw [htexts, hexpand], fun h => absurd hbalanced h,
      fun _ => ⟨⟨xs, hxs, hunique⟩, fun ys hys => by rw [hunique ys hys, hexpand]⟩, ?_⟩
    rw [hexpand]
    exact iff_of_false (sequenceTexts_ne_nil xs) (not_not_intro hbalanced)
  · have hnone := braceExpansion_of_not_balanced hbalanced
    have hexpand : expandBraces escapes pattern = [] := by
      rw [expandBraces, hnone]
      rfl
    exact ⟨by rw [hnone, hexpand], fun _ => hexpand, fun h => absurd h hbalanced,
      iff_of_true hexpand hbalanced⟩

/-- A group in a branch of a group, with an empty branch. -/
theorem expandBraces_nested :
    Balanced (braceTokens true "a\x7bb,c\x7b,d\x7d\x7d".toList) ∧
      expandBraces true "a\x7bb,c\x7b,d\x7d\x7d".toList =
        ["ab".toList, "ac".toList, "acd".toList] := by
  have hread : Reads (braceTokens true "a\x7bb,c\x7b,d\x7d\x7d".toList)
      [.literal ['a'], .group [.literal ['b']]
        [[.literal ['c'], .group [] [[.literal ['d']]]]]] := rfl
  have hbalanced : Balanced (braceTokens true "a\x7bb,c\x7b,d\x7d\x7d".toList) :=
    (balanced_iff_run itemBuilder).2 ⟨_, reads_iff_run.1 hread⟩
  exact ⟨hbalanced, ((expandBraces_eq_grammar true _).2.2.1 hbalanced).2 _ hread⟩

end PathGlob
