import Mathlib.Data.List.TakeWhile
import PathGlob.Proofs.Escapes
import PathGlob.Proofs.Pieces

/-! # The parts of a pattern
What the next part of a pattern is, told from the segments of the pattern.

* **`WellEscaped.marks_append`** — the marks of a well-escaped text do not hang on what follows it.
* **`WildSegment`** — a segment with a wildcard that a pattern can have.
* **`Part.next_of_not_isWild`**, **`Part.next_segment`**, **`Part.next_segment_cons`**,
  **`Part.next_lead`** — the next part: all there is without a wildcard, a segment with a wildcard,
  or the segments in front of one.
* **`Part.whole_text`** — a part with something behind it does not end inside an escape. -/

namespace PathGlob

variable {fs : Flags} {e : Bool}

/-! ## Pieces -/

/-- The pieces of a well-escaped text are well-escaped. -/
theorem WellEscaped.of_mem_pieces {t u : Text} (h : WellEscaped e t) (hu : u ∈ pieces '/' t) :
    WellEscaped e u := by
  rw [← joinWith_pieces '/' t] at h
  generalize pieces '/' t = ps at h hu
  induction ps with
  | nil => cases hu
  | cons p ps ih =>
    cases ps with
    | nil =>
      obtain rfl := List.mem_singleton.1 hu
      exact h
    | cons q qs =>
      rw [joinWith_cons p (by simp)] at h
      obtain ⟨hp, hqs⟩ := h.of_append_cons
      rcases List.mem_cons.1 hu with rfl | hu
      · exact hp
      · exact ih hqs hu

/-! ## Marks -/

/-- A character that begins no escape has its own mark. -/
theorem marks_unescaped {c : Char} (h : ¬(e && c == '\\') = true) (r : Text) :
    marks e (c :: r) = Mark.ofChar c :: marks e r := by
  cases r with
  | nil => simp only [marks, if_neg h]
  | cons d r => simp only [marks, if_neg h]

/-- A character that is no backslash has its own mark. -/
theorem marks_cons_of_ne {c : Char} (hc : c ≠ '\\') (r : Text) :
    marks e (c :: r) = Mark.ofChar c :: marks e r := by
  cases r <;> simp [marks, hc]

/-- A backslash and the character behind it are plain. -/
theorem marks_escape (he : e = true) (c : Char) (r : Text) :
    marks e ('\\' :: c :: r) = .plain :: .plain :: marks e r := by
  simp [marks, he]

@[simp] theorem marks_slash (r : Text) : marks e ('/' :: r) = .separator :: marks e r :=
  marks_cons_of_ne (by decide) r

/-- **The marks of a well-escaped text do not hang on what follows it.** -/
theorem WellEscaped.marks_append {t : Text} (h : WellEscaped e t) (u : Text) :
    marks e (t ++ u) = marks e t ++ marks e u := by
  induction h with
  | nil => rfl
  | char hc _ ih =>
    rw [List.cons_append, marks_cons_of_ne hc, marks_cons_of_ne hc, ih, List.cons_append]
  | escape he _ _ ih =>
    rw [List.cons_append, List.cons_append, marks_escape he, marks_escape he, ih,
      List.cons_append, List.cons_append]

/-- Only a slash and a colon are separators. -/
theorem isSeparator_iff {c : Char} : isSeparator c = true ↔ c = '/' ∨ c = ':' := by
  simp [isSeparator]

/-- Other characters have other marks. -/
theorem Mark.ofChar_ne_separator {c : Char} (hs : c ≠ '/') (hc : c ≠ ':') :
    Mark.ofChar c ≠ .separator := by
  unfold Mark.ofChar
  split
  · simp
  · simp [isSeparator, hs, hc]

/-- A well-escaped text without a slash and a colon has no separator. -/
theorem WellEscaped.separator_not_mem {t : Text} (h : WellEscaped e t) (hs : '/' ∉ t)
    (hc : ':' ∉ t) : Mark.separator ∉ marks e t := by
  induction h with
  | nil => simp [marks]
  | @char c r hb _ ih =>
    rw [List.mem_cons, not_or] at hs hc
    rw [marks_cons_of_ne hb, List.mem_cons, not_or]
    exact ⟨(Mark.ofChar_ne_separator (Ne.symm hs.1) (Ne.symm hc.1)).symm, ih hs.2 hc.2⟩
  | escape he _ _ ih =>
    simp only [List.mem_cons, not_or] at hs hc
    simp [marks_escape he, ih hs.2.2 hc.2.2]

/-- **Whether a text has a wildcard** that is not escaped. -/
def Flags.isWild (fs : Flags) (t : Text) : Bool := decide (Mark.wildcard ∈ marks fs.escapes t)

theorem Flags.isWild_iff {t : Text} : fs.isWild t = true ↔ Mark.wildcard ∈ marks fs.escapes t :=
  decide_eq_true_iff

theorem Flags.isWild_eq_false_iff {t : Text} :
    fs.isWild t = false ↔ Mark.wildcard ∉ marks fs.escapes t := decide_eq_false_iff_not

/-- A text without a character that begins a wildcard has none. -/
theorem Flags.isWild_of_forall (fs : Flags) {t : Text} (h : ∀ c ∈ t, isWildcard c = false) :
    fs.isWild t = false := by
  rw [Flags.isWild_eq_false_iff]
  intro hmem
  obtain ⟨i, hi⟩ := List.mem_iff_getElem?.1 hmem
  obtain ⟨u, c, r, rfl, -, hc, -⟩ := exists_of_getElem?_marks hi (by decide)
  have hw := h c (by simp)
  unfold Mark.ofChar at hc
  rw [hw, if_neg (by simp)] at hc
  split at hc <;> cases hc

/-- A star in front is a wildcard. -/
theorem Flags.isWild_star_cons (fs : Flags) (t : Text) : fs.isWild ('*' :: t) = true := by
  rw [Flags.isWild_iff, marks_cons_of_ne (by decide)]
  exact List.mem_cons_self

/-- The segment that matches any number of directories has a wildcard. -/
@[simp] theorem Flags.isWild_doubleStar (fs : Flags) : fs.isWild doubleStar = true :=
  fs.isWild_star_cons ['*']

/-- **A segment with a wildcard**, of which every character is what it is in a pattern. -/
structure WildSegment (fs : Flags) (seg : Text) : Prop where
  /-- Every backslash is that of an escape. -/
  escaped : WellEscaped fs.escapes seg
  /-- It has a wildcard. -/
  wild : fs.isWild seg = true
  /-- It has no separator. -/
  separator : Mark.separator ∉ marks fs.escapes seg

/-- A well-escaped text with a wildcard is such a segment if it has no slash and no colon. -/
theorem WellEscaped.wildSegment {t : Text} (h : WellEscaped fs.escapes t) (hw : fs.isWild t = true)
    (hs : '/' ∉ t) (hc : ':' ∉ t) : WildSegment fs t :=
  ⟨h, hw, h.separator_not_mem hs hc⟩

/-- A star is such a segment. -/
theorem wildSegment_star (fs : Flags) : WildSegment fs ['*'] :=
  WellEscaped.wildSegment (.of_not_mem (by decide)) (fs.isWild_star_cons []) (by decide) (by decide)

/-- So is a `**`. -/
theorem wildSegment_doubleStar (fs : Flags) : WildSegment fs doubleStar :=
  WellEscaped.wildSegment (.of_not_mem (by decide)) fs.isWild_doubleStar (by decide) (by decide)

/-- Segments begin with some that have no wildcard, and one that has follows these. -/
theorem exists_literals (fs : Flags) (segs : List Text) :
    ∃ lits rest, segs = lits ++ rest ∧ (∀ lit ∈ lits, fs.isWild lit = false) ∧
      ∀ seg ∈ rest.head?, fs.isWild seg = true := by
  induction segs with
  | nil => exact ⟨[], [], rfl, by simp, by simp⟩
  | cons seg segs ih =>
    cases hw : fs.isWild seg with
    | true => exact ⟨[], seg :: segs, rfl, by simp, by simpa using hw⟩
    | false =>
      obtain ⟨lits, rest, rfl, hlits, hrest⟩ := ih
      exact ⟨seg :: lits, rest, rfl, by simpa [hw] using hlits, hrest⟩

/-- Without wildcards in the segments there is none in the joining. -/
theorem Flags.isWild_joinWith (fs : Flags) {segs : List Text}
    (h : ∀ seg ∈ segs, WellEscaped fs.escapes seg) (hw : ∀ seg ∈ segs, fs.isWild seg = false) :
    fs.isWild (joinWith ['/'] segs) = false := by
  induction segs with
  | nil => rfl
  | cons seg rest ih =>
    cases rest with
    | nil => exact hw seg (by simp)
    | cons seg' rest =>
      have hseg := Flags.isWild_eq_false_iff.1 (hw seg (by simp))
      have hrest := Flags.isWild_eq_false_iff.1
        (ih (fun x hx => h x (by simp [hx])) fun x hx => hw x (by simp [hx]))
      rw [joinWith_cons seg (by simp), Flags.isWild_eq_false_iff, (h seg (by simp)).marks_append,
        marks_slash]
      simp [hseg, hrest]

/-! ## Ends of parts -/

/-- Marks without a wildcard stand in front of the first one. -/
theorem beforeWildcard_append {ms : List Mark} (h : Mark.wildcard ∉ ms) (ns : List Mark) :
    beforeWildcard (ms ++ ns) = ms ++ beforeWildcard ns := by
  apply List.takeWhile_append_of_pos
  intro m hm
  have hne : m ≠ Mark.wildcard := fun he => h (he ▸ hm)
  simpa using hne

/-- What stands in front of the first wildcard is a part of the marks. -/
theorem mem_of_mem_beforeWildcard {m : Mark} {ms : List Mark} (h : m ∈ beforeWildcard ms) :
    m ∈ ms := (List.takeWhile_sublist _).subset h

/-- Without a separator there is no place behind the last one. -/
theorem behindLastSeparator?_of_not_mem {ms : List Mark} (h : Mark.separator ∉ ms) :
    behindLastSeparator? ms = none := by
  induction ms with
  | nil => rfl
  | cons m ms ih =>
    rw [List.mem_cons, not_or] at h
    simp [behindLastSeparator?, ih h.2, Ne.symm h.1]

/-- The last separator is the one behind which there is none. -/
theorem behindLastSeparator?_append_cons (ms : List Mark) {ns : List Mark}
    (h : Mark.separator ∉ ns) :
    behindLastSeparator? (ms ++ .separator :: ns) = some (ms.length + 1) := by
  induction ms with
  | nil => simp [behindLastSeparator?, behindLastSeparator?_of_not_mem h]
  | cons m ms ih => simp [behindLastSeparator?, ih]

/-- In front of the place behind the last separator stands a separator. -/
theorem getElem?_of_behindLastSeparator? {ms : List Mark} {n : Nat}
    (h : behindLastSeparator? ms = some n) : ms[n - 1]? = some .separator := by
  induction ms generalizing n with
  | nil => simp [behindLastSeparator?] at h
  | cons m ms ih =>
    rw [behindLastSeparator?] at h
    cases hm : behindLastSeparator? ms with
    | some k =>
      -- the place is not the beginning of the rest, so it moves by one
      obtain ⟨hpos, -⟩ := behindLastSeparator?_bounds hm
      obtain rfl : k + 1 = n := by simpa [hm] using h
      have hk := ih hm
      rwa [Nat.add_sub_cancel, List.getElem?_cons, if_neg (Nat.ne_of_gt hpos)]
    | none =>
      simp only [hm, Option.ite_none_right_eq_some, Option.some.injEq] at h
      obtain ⟨rfl, rfl⟩ := h
      rfl

/-- Behind the marks in front of the first separator stands the separator. -/
theorem getElem?_length_takeWhile {ms : List Mark}
    (h : (ms.takeWhile (· != .separator)).length < ms.length) :
    ms[(ms.takeWhile (· != .separator)).length]? = some .separator := by
  induction ms with
  | nil => simp at h
  | cons m ms ih =>
    by_cases hm : m = .separator
    · simp [hm]
    · have htake : (m :: ms).takeWhile (· != .separator) =
          m :: ms.takeWhile (· != .separator) := by simp [hm]
      rw [htake, List.length_cons] at h ⊢
      rw [List.getElem?_cons_succ]
      exact ih (by simpa using h)

/-- The marks in front of the first wildcard stand where they do. -/
theorem getElem?_of_getElem?_beforeWildcard {ms : List Mark} {i : Nat} {m : Mark}
    (h : (beforeWildcard ms)[i]? = some m) : ms[i]? = some m := by
  obtain ⟨ns, hns⟩ := List.takeWhile_prefix (l := ms) (· != Mark.wildcard)
  obtain ⟨hlt, -⟩ := List.getElem?_eq_some_iff.1 h
  rw [← hns]
  exact (List.getElem?_append_left hlt).trans h

/-- **A part that does not reach the end is followed by a separator.** -/
theorem getElem?_partEnd {ms : List Mark} (h : (partEnd ms).1 < ms.length) :
    ms[(partEnd ms).1]? = some .separator := by
  unfold partEnd at h ⊢
  split
  · rename_i hw
    simp only [hw, if_true] at h
    cases hb : behindLastSeparator? (beforeWildcard ms) with
    | some n => exact getElem?_of_getElem?_beforeWildcard (getElem?_of_behindLastSeparator? hb)
    | none =>
      rw [hb] at h
      exact getElem?_length_takeWhile h
  · rename_i hw
    simp [hw] at h

/-- Without a wildcard the part is all there is. -/
theorem partEnd_of_not_mem {ms : List Mark} (h : Mark.wildcard ∉ ms) :
    partEnd ms = (ms.length, false) := by
  simp [partEnd, h]

/-- The marks of a segment with a wildcard are a part. -/
theorem partEnd_segment {ms : List Mark} (hw : Mark.wildcard ∈ ms) (hs : Mark.separator ∉ ms) :
    partEnd ms = (ms.length, true) := by
  have hb : behindLastSeparator? (beforeWildcard ms) = none :=
    behindLastSeparator?_of_not_mem fun hm => hs (mem_of_mem_beforeWildcard hm)
  have htake : ms.takeWhile (· != .separator) = ms := by
    rw [List.takeWhile_eq_self_iff]
    intro m hm
    have hne : m ≠ Mark.separator := fun he => hs (he ▸ hm)
    simpa using hne
  simp [partEnd, hw, hb, htake]

/-- The marks up to the first wildcard are those of the text that has it. -/
theorem beforeWildcard_append_of_mem {ms : List Mark} (h : Mark.wildcard ∈ ms) (ns : List Mark) :
    beforeWildcard (ms ++ ns) = beforeWildcard ms := by
  induction ms with
  | nil => simp at h
  | cons m ms ih =>
    by_cases hm : m = .wildcard
    · simp [beforeWildcard, hm]
    · have hms : Mark.wildcard ∈ ms := by
        rcases List.mem_cons.1 h with he | hms
        · exact absurd he.symm hm
        · exact hms
      have htail := ih hms
      unfold beforeWildcard at htail ⊢
      simp [hm, htail]

/-- A segment with a wildcard is a part, whatever stands behind its separator. -/
theorem partEnd_segment_append {ms : List Mark} (hw : Mark.wildcard ∈ ms)
    (hs : Mark.separator ∉ ms) (ns : List Mark) :
    partEnd (ms ++ .separator :: ns) = (ms.length, true) := by
  have hb : behindLastSeparator? (beforeWildcard (ms ++ .separator :: ns)) = none := by
    rw [beforeWildcard_append_of_mem hw]
    exact behindLastSeparator?_of_not_mem fun hm => hs (mem_of_mem_beforeWildcard hm)
  have htake : (ms ++ .separator :: ns).takeWhile (· != .separator) = ms := by
    rw [List.takeWhile_append_of_pos]
    · simp
    · intro m hm
      have hne : m ≠ Mark.separator := fun he => hs (he ▸ hm)
      simpa using hne
  simp [partEnd, hw, hb, htake]

/-- The last separator in front of the first wildcard stands in front of the segment that has it. -/
theorem behindLastSeparator?_beforeWildcard {ls ms : List Mark} (hl : Mark.wildcard ∉ ls)
    (hw : Mark.wildcard ∈ ms) (hs : Mark.separator ∉ ms) (ns : List Mark) :
    behindLastSeparator? (beforeWildcard (ls ++ .separator :: (ms ++ ns))) =
      some (ls.length + 1) := by
  rw [List.append_cons, beforeWildcard_append (by simp [hl]), beforeWildcard_append_of_mem hw,
    ← List.append_cons]
  exact behindLastSeparator?_append_cons _ fun hm => hs (mem_of_mem_beforeWildcard hm)

/-- The segments in front of one with a wildcard are a part. -/
theorem partEnd_lead {ls ms : List Mark} (hl : Mark.wildcard ∉ ls) (hw : Mark.wildcard ∈ ms)
    (hs : Mark.separator ∉ ms) (ns : List Mark) :
    partEnd (ls ++ .separator :: (ms ++ ns)) = (ls.length, false) := by
  simp [partEnd, hw, behindLastSeparator?_beforeWildcard hl hw hs]

/-- The leading segments end behind the last separator in front of one with a wildcard. -/
theorem leadEnd?_lead {lead seg : Text} (hl : WellEscaped fs.escapes lead)
    (hln : fs.isWild lead = false) (h : WildSegment fs seg) (tail : Text) :
    leadEnd? (marks fs.escapes (lead ++ '/' :: (seg ++ tail))) = some (lead.length + 1) := by
  have hw := Flags.isWild_iff.1 h.wild
  rw [hl.marks_append, marks_slash, h.escaped.marks_append, leadEnd?,
    behindLastSeparator?_beforeWildcard (Flags.isWild_eq_false_iff.1 hln) hw h.separator,
    length_marks]
  simp [hw]

/-! ## Parts -/

/-- Without a wildcard the part is the whole pattern. -/
theorem Part.next_of_not_isWild {t : Text} (h : fs.isWild t = false) :
    Part.next fs.escapes t = ⟨t, false, none⟩ := by
  simp [Part.next, partEnd_of_not_mem (Flags.isWild_eq_false_iff.1 h)]

/-- A segment with a wildcard at the end of a pattern is a part. -/
theorem Part.next_segment {seg : Text} (h : WildSegment fs seg) :
    Part.next fs.escapes seg = ⟨seg, true, none⟩ := by
  simp [Part.next, partEnd_segment (Flags.isWild_iff.1 h.wild) h.separator]

/-- A segment with a wildcard is a part with what stands behind its separator. -/
theorem Part.next_segment_cons {seg : Text} (h : WildSegment fs seg) (r : Text) :
    Part.next fs.escapes (seg ++ '/' :: r) = ⟨seg, true, some r⟩ := by
  have hend : partEnd (marks fs.escapes (seg ++ '/' :: r)) = (seg.length, true) := by
    rw [h.escaped.marks_append, marks_slash,
      partEnd_segment_append (Flags.isWild_iff.1 h.wild) h.separator, length_marks]
  simp [Part.next, hend]

/-- **The segments in front of one with a wildcard are a part.** -/
theorem Part.next_lead {lead seg : Text} (hl : WellEscaped fs.escapes lead)
    (hln : fs.isWild lead = false) (h : WildSegment fs seg) (tail : Text) :
    Part.next fs.escapes (lead ++ '/' :: (seg ++ tail)) = ⟨lead, false, some (seg ++ tail)⟩ := by
  have hend : partEnd (marks fs.escapes (lead ++ '/' :: (seg ++ tail))) = (lead.length, false) := by
    rw [hl.marks_append, marks_slash, h.escaped.marks_append,
      partEnd_lead (Flags.isWild_eq_false_iff.1 hln) (Flags.isWild_iff.1 h.wild) h.separator,
      length_marks]
  simp [Part.next, hend]

/-- The leading segments in front of a wildcard are whole. -/
theorem Flags.whole_take_leadEnd? {t : Text} {n : Nat}
    (h : leadEnd? (marks fs.escapes t) = some n) (hn : n ≠ t.length) : fs.Whole (t.take n) := by
  unfold leadEnd? at h
  split at h
  · have hsep : (marks fs.escapes t)[n - 1]? = some .separator :=
      getElem?_of_getElem?_beforeWildcard (getElem?_of_behindLastSeparator? h)
    -- the separator is unescaped, so what stands in front of it is whole
    obtain ⟨u, c, v, rfl, hlen, hc, hu⟩ := exists_of_getElem?_marks hsep (by simp)
    obtain ⟨hpos, -⟩ := behindLastSeparator?_bounds h
    have htake : (u ++ c :: v).take n = u ++ [c] := by
      obtain rfl : n = u.length + 1 := by omega
      rw [List.append_cons, List.take_left' (by simp)]
    rw [htake]
    refine hu.append (Flags.Whole.nil.cons ?_)
    rintro rfl
    cases hc
  · rw [length_marks] at h
    exact absurd (Option.some.inj h).symm hn

/-- **A part with something behind it is whole.** -/
theorem Part.whole_text {t r : Text} (h : (Part.next fs.escapes t).rest? = some r) :
    fs.Whole (Part.next fs.escapes t).text := by
  have hlt : (partEnd (marks fs.escapes t)).1 < (marks fs.escapes t).length := by
    apply Nat.lt_of_le_of_ne (partEnd_le _)
    intro heq
    rw [length_marks] at heq
    simp [Part.next, heq] at h
  -- the part ends at an unescaped separator
  obtain ⟨u, c, v, ht, hlen, -, hu⟩ := exists_of_getElem?_marks (getElem?_partEnd hlt) (by simp)
  have htext : (Part.next fs.escapes t).text = t.take (partEnd (marks fs.escapes t)).1 := rfl
  rw [htext, ← hlen]
  conv in t.take _ => rw [ht]
  rwa [List.take_left]

/-- What is not in a pattern is not in its next part, nor in what remains behind it. -/
theorem Part.not_mem {t : Text} {c : Char} (h : c ∉ t) (e : Bool) :
    c ∉ (Part.next e t).text ∧ ∀ r, (Part.next e t).rest? = some r → c ∉ r := by
  constructor
  · exact fun hmem => h (List.mem_of_mem_take hmem)
  · intro r hr hmem
    unfold Part.next at hr
    simp only [Option.ite_none_left_eq_some, Option.some.injEq] at hr
    obtain ⟨-, rfl⟩ := hr
    exact h (List.mem_of_mem_drop hmem)

end PathGlob
