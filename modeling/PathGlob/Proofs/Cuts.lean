import PathGlob.Proofs.Parts
import PathGlob.Walk

/-! # How a pattern is cut
The next part of a pattern, told without scanning: where it ends, what it has and what is left behind
it.

* **`Flags.Whole.induction`** — induction along a text that does not end inside an escape.
* **`Flags.Whole.marks_append`** — the marks of such a text do not hang on what follows it.
* **`Cuts`** — the ways in which a pattern is cut into a part and the rest.
* **`cuts_iff`** — the next part is the one that is cut off in one of these ways.
* **`begins`** — the ways in which a pattern begins.
* **`startJobs_anchored_literal`**, **`startJobs_anchored_lead`** and **`startJobs_wild_front`** — where
  the walk of a pattern begins that names its starting point. -/

namespace PathGlob

variable {fs : Flags} {t u : Text} {c : Char} {part : Part}

/-! ## Whole texts -/

/-- What stands behind a whole text in a whole text is whole. -/
theorem Flags.Whole.of_append (h : fs.Whole (t ++ u)) (ht : fs.Whole t) : fs.Whole u := by
  intro v
  have hall := h v
  rw [List.append_assoc, ht, ht, List.append_assoc] at hall
  exact List.append_cancel_left hall

/-- A single backslash that could begin an escape is not whole. -/
theorem Flags.not_whole_backslash (he : fs.escapes = true) : ¬fs.Whole ['\\'] := by
  intro h
  have hall := h ['x']
  rw [List.singleton_append, Flags.plainText_escape he] at hall
  simp [Flags.plainText, he] at hall

/-- **Induction along a whole text**: it is made of characters that begin no escape, and of escapes. -/
@[elab_as_elim]
theorem Flags.Whole.induction {motive : (t : Text) → fs.Whole t → Prop} (nil : motive [] .nil)
    (char : ∀ c r (_ : ¬(fs.escapes && c == '\\') = true) (hr : fs.Whole r)
      (hcr : fs.Whole (c :: r)), motive r hr → motive (c :: r) hcr)
    (escape : ∀ c r (he : fs.escapes = true) (hr : fs.Whole r), motive r hr →
      motive ('\\' :: c :: r) (hr.escape he))
    (t : Text) (h : fs.Whole t) : motive t h := by
  have hchar : ∀ c r, ¬(fs.escapes && c == '\\') = true → fs.Whole (c :: r) → fs.Whole r := by
    intro c r hc hr
    refine Flags.Whole.of_append (show fs.Whole ([c] ++ r) from hr) fun v => ?_
    rw [List.singleton_append, Flags.plainText_unescaped hc, Flags.plainText_unescaped hc,
      Flags.plainText_nil, List.singleton_append]
  fun_induction marks fs.escapes t with
  | case1 => exact nil
  | case2 c =>
    by_cases hc : (fs.escapes && c == '\\') = true
    · obtain ⟨he, rfl⟩ : fs.escapes = true ∧ c = '\\' := by simpa using hc
      exact absurd h (Flags.not_whole_backslash he)
    · exact char c [] hc .nil h nil
  | case3 c d r hc ih =>
    obtain ⟨he, rfl⟩ : fs.escapes = true ∧ c = '\\' := by simpa using hc
    have hr : fs.Whole r :=
      Flags.Whole.of_append (show fs.Whole (['\\', d] ++ r) from h) (Flags.Whole.nil.escape he)
    exact escape d r he hr (ih hr)
  | case4 c d r hc ih =>
    have hr := hchar c (d :: r) hc h
    exact char c (d :: r) hc hr h (ih hr)

/-- **The marks of a whole text do not hang on what follows it.** -/
theorem Flags.Whole.marks_append (h : fs.Whole t) (u : Text) :
    marks fs.escapes (t ++ u) = marks fs.escapes t ++ marks fs.escapes u := by
  induction t, h using Flags.Whole.induction with
  | nil => rfl
  | char c r hc _ _ ih =>
    rw [List.cons_append, marks_unescaped hc, marks_unescaped hc, ih, List.cons_append]
  | escape c r he _ ih =>
    rw [List.cons_append, List.cons_append, marks_escape he, marks_escape he, ih, List.cons_append,
      List.cons_append]

/-! ## Separators -/

/-- The characters with the mark of a separator. -/
theorem Mark.ofChar_eq_separator_iff : Mark.ofChar c = .separator ↔ isSeparator c = true := by
  unfold Mark.ofChar
  by_cases hs : isSeparator c = true
  · have hw : isWildcard c = false := by
      rcases isSeparator_iff.1 hs with rfl | rfl <;> decide
    simp [hs, hw]
  · by_cases hw : isWildcard c = true <;> simp [hs, hw]

/-- The marks of a text with a separator behind a whole text. -/
theorem Flags.Whole.marks_separator (h : fs.Whole t) (hc : isSeparator c = true) (u : Text) :
    marks fs.escapes (t ++ c :: u) = marks fs.escapes t ++ .separator :: marks fs.escapes u := by
  have hb : c ≠ '\\' := by
    rintro rfl
    cases hc
  rw [h.marks_append, marks_cons_of_ne hb, Mark.ofChar_eq_separator_iff.2 hc]

/-- There is a place behind the last separator exactly if there is a separator. -/
theorem behindLastSeparator?_eq_none_iff {ms : List Mark} :
    behindLastSeparator? ms = none ↔ Mark.separator ∉ ms := by
  refine ⟨fun h hmem => ?_, behindLastSeparator?_of_not_mem⟩
  induction ms with
  | nil => cases hmem
  | cons m ms ih =>
    rw [behindLastSeparator?] at h
    cases hms : behindLastSeparator? ms with
    | some n => simp [hms] at h
    | none =>
      rcases List.mem_cons.1 hmem with rfl | hmem
      · simp [hms] at h
      · exact ih hms hmem

/-- In front of the place behind the last separator stands the last separator. -/
theorem exists_of_behindLastSeparator? {ms : List Mark} {n : Nat}
    (h : behindLastSeparator? ms = some n) :
    ∃ xs ys, ms = xs ++ .separator :: ys ∧ n = xs.length + 1 ∧ Mark.separator ∉ ys := by
  induction ms generalizing n with
  | nil => cases h
  | cons m ms ih =>
    rw [behindLastSeparator?] at h
    cases hms : behindLastSeparator? ms with
    | some k =>
      obtain ⟨xs, ys, rfl, rfl, hys⟩ := ih hms
      obtain rfl : xs.length + 1 + 1 = n := by simpa [hms] using h
      exact ⟨m :: xs, ys, rfl, rfl, hys⟩
    | none =>
      obtain ⟨rfl, rfl⟩ : m = .separator ∧ 1 = n := by simpa [hms] using h
      exact ⟨[], ms, rfl, rfl, behindLastSeparator?_eq_none_iff.1 hms⟩

/-! ## Cuts -/

/-- **The ways in which a pattern is cut** into its next part and what is left. -/
inductive Cuts (fs : Flags) : Text → Part → Prop
  /-- Without a wildcard the part is all there is. -/
  | rest {t : Text} (hw : fs.isWild t = false) : Cuts fs t ⟨t, false, none⟩
  /-- Segments without wildcards are cut off in front of the segment with the first wildcard. -/
  | lead {t u : Text} {c : Char} (ht : fs.Whole t) (hc : isSeparator c = true)
    (hw : fs.isWild t = false) (hu : fs.isWild u = true)
    (hfirst : .separator ∉ beforeWildcard (marks fs.escapes u)) :
    Cuts fs (t ++ c :: u) ⟨t, false, some u⟩
  /-- A single segment with a wildcard is all there is. -/
  | last {t : Text} (hw : fs.isWild t = true) (hs : .separator ∉ marks fs.escapes t) :
    Cuts fs t ⟨t, true, none⟩
  /-- A segment with a wildcard is cut off at its end. -/
  | segment {t u : Text} {c : Char} (ht : fs.Whole t) (hc : isSeparator c = true)
    (hw : fs.isWild t = true) (hs : .separator ∉ marks fs.escapes t) :
    Cuts fs (t ++ c :: u) ⟨t, true, some u⟩

/-- A part that ends at a place is what stands in front of it. -/
theorem Part.next_of_partEnd {wild : Bool}
    (h : partEnd (marks fs.escapes (t ++ c :: u)) = (t.length, wild)) :
    Part.next fs.escapes (t ++ c :: u) = ⟨t, wild, some u⟩ := by
  simp [Part.next, h]

/-- In front of the first wildcard stand the leading segments, and what stands there in the segment
that has it. -/
theorem Flags.Whole.beforeWildcard_lead (ht : fs.Whole t) (hc : isSeparator c = true)
    (hw : fs.isWild t = false) (u : Text) :
    beforeWildcard (marks fs.escapes (t ++ c :: u)) =
      marks fs.escapes t ++ .separator :: beforeWildcard (marks fs.escapes u) := by
  rw [ht.marks_separator hc, beforeWildcard_append (Flags.isWild_eq_false_iff.1 hw)]
  rfl

/-- A wildcard behind leading segments is one of the whole pattern. -/
theorem Flags.Whole.isWild_lead (ht : fs.Whole t) (hc : isSeparator c = true)
    (hu : fs.isWild u = true) : fs.isWild (t ++ c :: u) = true := by
  rw [Flags.isWild_iff, ht.marks_separator hc]
  exact List.mem_append_right _ (List.mem_cons_of_mem _ (Flags.isWild_iff.1 hu))

/-- What is cut off in one of these ways is the next part. -/
theorem Cuts.next_eq (h : Cuts fs t part) : Part.next fs.escapes t = part := by
  cases h with
  | rest hw => exact Part.next_of_not_isWild hw
  | @lead t u c ht hc hw hu hfirst =>
    apply Part.next_of_partEnd
    rw [partEnd, ht.beforeWildcard_lead hc hw, behindLastSeparator?_append_cons _ hfirst,
      if_pos (Flags.isWild_iff.1 (ht.isWild_lead hc hu))]
    simp
  | last hw hs => simp [Part.next, partEnd_segment (Flags.isWild_iff.1 hw) hs]
  | segment ht hc hw hs =>
    apply Part.next_of_partEnd
    rw [ht.marks_separator hc, partEnd_segment_append (Flags.isWild_iff.1 hw) hs, length_marks]

/-- In a part with a wildcard no separator stands in front of the first one. -/
theorem Cuts.wild_front (h : Cuts fs t part) (hpart : part.wild = true) :
    fs.isWild t = true ∧ .separator ∉ beforeWildcard (marks fs.escapes t) := by
  cases h with
  | rest hw => cases hpart
  | lead ht hc hw hu hfirst => cases hpart
  | last hw hs => exact ⟨hw, fun hmem => hs (mem_of_mem_beforeWildcard hmem)⟩
  | segment ht hc hw hs =>
    have hwild := Flags.isWild_iff.1 hw
    rw [Flags.isWild_iff, ht.marks_append, beforeWildcard_append_of_mem hwild]
    exact ⟨List.mem_append_left _ hwild, fun hmem => hs (mem_of_mem_beforeWildcard hmem)⟩

/-- Between a part and what remains there is a separator. -/
theorem Cuts.exists_separator (h : Cuts fs t part) (hr : part.rest? = some u) :
    ∃ c, isSeparator c = true ∧ t = part.text ++ c :: u := by
  cases h with
  | rest hw => cases hr
  | last hw hs => cases hr
  | lead ht hc hw hu hfirst =>
    obtain rfl := Option.some.inj hr
    exact ⟨_, hc, rfl⟩
  | segment ht hc hw hs =>
    obtain rfl := Option.some.inj hr
    exact ⟨_, hc, rfl⟩

/-- A text is cut in two at a mark of a separator. -/
theorem exists_split_of_marks {xs ys : List Mark} (h : marks fs.escapes t = xs ++ .separator :: ys) :
    ∃ a c b, t = a ++ c :: b ∧ fs.Whole a ∧ isSeparator c = true ∧ marks fs.escapes a = xs ∧
      marks fs.escapes b = ys := by
  have hmark : (marks fs.escapes t)[xs.length]? = some .separator := by
    rw [h, List.getElem?_append_right (Nat.le_refl _), Nat.sub_self]
    rfl
  obtain ⟨a, c, b, rfl, hlen, hc, ha⟩ := exists_of_getElem?_marks hmark (by simp)
  have hsep := Mark.ofChar_eq_separator_iff.1 hc
  rw [ha.marks_separator hsep] at h
  obtain ⟨hxs, hys⟩ := List.append_inj h (by rw [length_marks, hlen])
  exact ⟨a, c, b, rfl, ha, hsep, hxs, (List.cons.inj hys).2⟩

/-- What stands in front of the first wildcard begins all marks. -/
theorem beforeWildcard_prefix (ms : List Mark) : beforeWildcard ms <+: ms := List.takeWhile_prefix _

/-- It has no wildcard. -/
theorem wildcard_not_mem_beforeWildcard (ms : List Mark) : Mark.wildcard ∉ beforeWildcard ms := by
  intro h
  have hne := List.all_eq_true.1 List.all_takeWhile _ h
  simp at hne

/-- **The next part is cut off in one of these ways.** -/
theorem cuts_next (fs : Flags) (t : Text) : Cuts fs t (Part.next fs.escapes t) := by
  have hcut : ∀ {part}, Cuts fs t part → Cuts fs t (Part.next fs.escapes t) :=
    fun h => h.next_eq.symm ▸ h
  cases hw : fs.isWild t with
  | false => exact hcut (.rest hw)
  | true =>
    have hwild := Flags.isWild_iff.1 hw
    cases hbehind : behindLastSeparator? (beforeWildcard (marks fs.escapes t)) with
    | some n =>
      -- the text is cut at the last separator in front of the first wildcard
      obtain ⟨xs, ys, hxs, -, hys⟩ := exists_of_behindLastSeparator? hbehind
      obtain ⟨later, hlater⟩ := beforeWildcard_prefix (marks fs.escapes t)
      rw [hxs, List.append_assoc, List.cons_append] at hlater
      obtain ⟨a, c, b, rfl, ha, hc, rfl, hb⟩ := exists_split_of_marks hlater.symm
      have hlead : Mark.wildcard ∉ marks fs.escapes a := fun hmem =>
        wildcard_not_mem_beforeWildcard _ (hxs ▸ List.mem_append_left _ hmem)
      rw [ha.marks_separator hc] at hwild hxs
      have hrest : beforeWildcard (marks fs.escapes b) = ys := by
        rw [beforeWildcard_append hlead] at hxs
        exact (List.cons.inj (List.append_cancel_left hxs)).2
      refine hcut (.lead ha hc (Flags.isWild_eq_false_iff.2 hlead) ?_ (hrest ▸ hys))
      rw [Flags.isWild_iff]
      simpa [hlead] using hwild
    | none =>
      have hfront := behindLastSeparator?_eq_none_iff.1 hbehind
      by_cases hs : Mark.separator ∈ marks fs.escapes t
      · -- the text is cut at its first separator, and the wildcard stands in front of that
        obtain ⟨xs, ys, hxs, hnot⟩ := List.eq_append_cons_of_mem hs
        obtain ⟨a, c, b, rfl, ha, hc, rfl, -⟩ := exists_split_of_marks hxs
        refine hcut (.segment ha hc ?_ hnot)
        cases hwa : fs.isWild a with
        | true => rfl
        | false =>
          rw [ha.marks_separator hc, beforeWildcard_append (Flags.isWild_eq_false_iff.1 hwa)] at hfront
          exact absurd (List.mem_append_right _ List.mem_cons_self) hfront
      · exact hcut (.last hw hs)

/-- **The next part is the one that is cut off in one of these ways.** -/
theorem cuts_iff : Cuts fs t part ↔ Part.next fs.escapes t = part := by
  constructor
  · exact Cuts.next_eq
  · rintro rfl
    exact cuts_next fs t

/-! ## The beginning of a walk -/

/-- **How a pattern begins**: it has no wildcard, or there are leading segments in front of the one with
the first wildcard, or that one is the first segment. -/
inductive Begins (fs : Flags) : Text → Prop
  /-- There is no wildcard. -/
  | literal {t : Text} (hw : fs.isWild t = false) : Begins fs t
  /-- There are leading segments. -/
  | lead {t u : Text} {c : Char} (ht : fs.Whole t) (hc : isSeparator c = true)
    (hw : fs.isWild t = false) (hu : fs.isWild u = true)
    (hfirst : .separator ∉ beforeWildcard (marks fs.escapes u)) : Begins fs (t ++ c :: u)
  /-- The first segment has a wildcard. -/
  | wild {t : Text} (hw : fs.isWild t = true)
    (hfirst : .separator ∉ beforeWildcard (marks fs.escapes t)) : Begins fs t

/-- Every pattern begins in one of these ways. -/
theorem begins (fs : Flags) (t : Text) : Begins fs t := by
  have hcut := cuts_next fs t
  generalize Part.next fs.escapes t = part at hcut
  cases hwild : part.wild with
  | true =>
    obtain ⟨hw, hfirst⟩ := hcut.wild_front hwild
    exact .wild hw hfirst
  | false =>
    cases hcut with
    | rest hw => exact .literal hw
    | lead ht hc hw hu hfirst => exact .lead ht hc hw hu hfirst
    | last _ _ => cases hwild
    | segment _ _ _ _ => cases hwild

section

variable {ε : Type}

/-- The walk of a pattern that names its starting point. -/
theorem startJobs_of_anchored (hne : t ≠ []) (hstar : t ≠ doubleStar) (ha : isAnchored t = true) :
    (startJobs fs t : List (Job ε)) =
      let lead := (leadEnd? (marks fs.escapes t)).getD 0
      if lead = t.length then [.candidate ⟨fs, endsIn '/' t, false⟩ t]
      else if lead = 0 then [.visit ⟨fs, endsIn '/' t, true⟩ currentDirectory t false]
      else [.visit ⟨fs, endsIn '/' t, false⟩ (t.take lead) (t.drop lead) false] := by
  have hwalked : walkedPattern t = t := if_neg hstar
  have hempty : t.isEmpty = false := by simpa using hne
  simp only [startJobs, hwalked, hempty, ha, Bool.false_eq_true, if_false, if_true]

/-- A text with another character than a star is no `**`. -/
theorem ne_doubleStar_of_mem_of_ne (h : c ∈ t) (hc : c ≠ '*') : t ≠ doubleStar := by
  rintro rfl
  exact hc (by simpa [doubleStar] using h)

/-- **Without a wildcard an anchored pattern is tested as it is.** -/
theorem startJobs_anchored_literal (hne : t ≠ []) (ha : isAnchored t = true)
    (hw : fs.isWild t = false) :
    (startJobs fs t : List (Job ε)) = [.candidate ⟨fs, endsIn '/' t, false⟩ t] := by
  have hstar : t ≠ doubleStar := by
    rintro rfl
    simp at hw
  have hend : leadEnd? (marks fs.escapes t) = some t.length := by
    simp [leadEnd?, Flags.isWild_eq_false_iff.1 hw]
  rw [startJobs_of_anchored hne hstar ha, hend]
  exact if_pos rfl

/-- **The walk of an anchored pattern begins behind its leading segments.** -/
theorem startJobs_anchored_lead (ha : isAnchored (t ++ c :: u) = true) (ht : fs.Whole t)
    (hc : isSeparator c = true) (hw : fs.isWild t = false) (hu : fs.isWild u = true)
    (hfirst : .separator ∉ beforeWildcard (marks fs.escapes u)) :
    (startJobs fs (t ++ c :: u) : List (Job ε)) =
      [.visit ⟨fs, endsIn '/' (t ++ c :: u), false⟩ (t ++ [c]) u false] := by
  have hstar : t ++ c :: u ≠ doubleStar := by
    refine ne_doubleStar_of_mem_of_ne (c := c) (by simp) ?_
    rintro rfl
    cases hc
  have hend : leadEnd? (marks fs.escapes (t ++ c :: u)) = some (t.length + 1) := by
    rw [leadEnd?, ht.beforeWildcard_lead hc hw, behindLastSeparator?_append_cons _ hfirst,
      if_pos (Flags.isWild_iff.1 (ht.isWild_lead hc hu)), length_marks]
  have hlong : t.length + 1 ≠ (t ++ c :: u).length := by
    cases u with
    | nil => cases hu
    | cons d u => simp
  have htake : (t ++ c :: u).take (t.length + 1) = t ++ [c] := by
    rw [List.append_cons, List.take_left' (by simp)]
  have hdrop : (t ++ c :: u).drop (t.length + 1) = u := by
    rw [List.append_cons, List.drop_left' (by simp)]
  rw [startJobs_of_anchored (by simp) hstar ha, hend, Option.getD_some]
  simp only [if_neg hlong, Nat.succ_ne_zero, if_false, htake, hdrop]

/-- **If the first segment has a wildcard, the walk begins in the current directory**, whether the
pattern names its starting point or not. -/
theorem startJobs_wild_front (hstar : t ≠ doubleStar) (hw : fs.isWild t = true)
    (hfirst : .separator ∉ beforeWildcard (marks fs.escapes t)) :
    (startJobs fs t : List (Job ε)) =
      [.visit ⟨fs, endsIn '/' t, true⟩ currentDirectory t false] := by
  have hne : t ≠ [] := by
    rintro rfl
    cases hw
  cases ha : isAnchored t with
  | false =>
    have hwalked : walkedPattern t = t := if_neg hstar
    simp [startJobs, hwalked, hne, ha]
  | true =>
    have hend : leadEnd? (marks fs.escapes t) = none := by
      rw [leadEnd?, if_pos (Flags.isWild_iff.1 hw), behindLastSeparator?_of_not_mem hfirst]
    have hlong : 0 ≠ t.length := (List.length_pos_iff.2 hne).ne
    rw [startJobs_of_anchored hne hstar ha, hend, Option.getD_none]
    simp only [if_neg hlong, if_true]

end

end PathGlob
