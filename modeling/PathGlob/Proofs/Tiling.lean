import PathGlob.Proofs.EscapedNames

/-! # A pattern cut from end to end
A scanner that stands at a place of a pattern sees only what is behind it, and begins there without an
escape. The parts that it finds one after the other nevertheless are those of the whole pattern: each of
them ends at a separator that is not escaped, so that the next one begins where nothing is escaped
either.

* **`UnescapedAt`** — a character that is not escaped; **`unescapedAt_wildcard_iff`** and
  **`unescapedAt_separator_iff`** say it by marks.
* **`Stretch`** — a part by its places; **`CutsAlong`** — the stretches found from a place on.
* **`Stretch.Fits`** — what is to be said about a single stretch.
* **`Flags.Aligned`** — a place where no escape is open; **`Flags.Aligned.fits`** and
  **`Flags.Aligned.next`** are the step, **`Flags.Aligned.exists_cutsAlong`** and
  **`CutsAlong.forall_fits`** the run.
* **`stretches_tile`** — the main statement. -/

namespace PathGlob

variable {fs : Flags} {pattern t : Text} {i pos : Nat} {part : Part}

/-! ## Unescaped characters -/

/-- **A character of a kind that stands at a place of a pattern and is not escaped**: what is in front of
it does not end inside an escape. -/
def UnescapedAt (fs : Flags) (pattern : Text) (kind : Char → Bool) (i : Nat) : Prop :=
  ∃ c, pattern[i]? = some c ∧ kind c = true ∧
    (fs.escapes = true → endsInsideEscape (pattern.take i) = false)

instance (fs : Flags) (pattern : Text) (kind : Char → Bool) (i : Nat) :
    Decidable (UnescapedAt fs pattern kind i) :=
  decidable_of_iff (pattern[i]?.any kind = true ∧
    (fs.escapes = true → endsInsideEscape (pattern.take i) = false))
    (by simp only [UnescapedAt, Option.any_eq_true, ← and_assoc, exists_and_right])

/-- Whether a text is whole, with or without escapes. -/
theorem Flags.whole_iff_of_escapes :
    fs.Whole t ↔ (fs.escapes = true → endsInsideEscape t = false) := by
  by_cases he : fs.escapes = true
  · rw [Flags.whole_iff he]
    exact ⟨fun h _ => h, fun h => h he⟩
  · exact iff_of_true (.of_not_escapes (by simpa using he) t) fun h => absurd h he

/-- **A mark with a meaning is that of an unescaped character.** -/
theorem getElem?_marks_iff {m : Mark} (hm : m ≠ .plain) :
    (marks fs.escapes pattern)[i]? = some m ↔
      UnescapedAt fs pattern (fun c => Mark.ofChar c == m) i := by
  constructor
  · intro h
    obtain ⟨u, c, r, rfl, rfl, hc, hu⟩ := exists_of_getElem?_marks h hm
    refine ⟨c, by simp, beq_iff_eq.2 hc, ?_⟩
    rw [List.take_left]
    exact Flags.whole_iff_of_escapes.1 hu
  · rintro ⟨c, hget, hc, hinside⟩
    obtain ⟨hlt, rfl⟩ := List.getElem?_eq_some_iff.1 hget
    have hne : pattern[i] ≠ '\\' := by
      intro hback
      rw [hback] at hc
      exact hm (beq_iff_eq.1 hc).symm
    have hsplit : pattern = pattern.take i ++ pattern[i] :: pattern.drop (i + 1) := by simp
    have hmarks := (Flags.whole_iff_of_escapes.2 hinside).marks_append
      (pattern[i] :: pattern.drop (i + 1))
    rw [← hsplit, marks_cons_of_ne hne, beq_iff_eq.1 hc] at hmarks
    have hlen : (marks fs.escapes (pattern.take i)).length = i := by
      rw [length_marks, List.length_take_of_le (Nat.le_of_lt hlt)]
    rw [hmarks, List.getElem?_append_right (Nat.le_of_eq hlen), hlen, Nat.sub_self]
    rfl

/-- An unescaped separator has the mark of one. -/
theorem unescapedAt_separator_iff :
    UnescapedAt fs pattern isSeparator i ↔ (marks fs.escapes pattern)[i]? = some .separator := by
  have hkind : isSeparator = fun c => Mark.ofChar c == .separator := by
    funext c
    rw [Bool.eq_iff_iff, beq_iff_eq, Mark.ofChar_eq_separator_iff]
  rw [hkind, getElem?_marks_iff (by decide)]

/-- An unescaped character that begins a wildcard has the mark of one. -/
theorem unescapedAt_wildcard_iff :
    UnescapedAt fs pattern isWildcard i ↔ (marks fs.escapes pattern)[i]? = some .wildcard := by
  have hkind : isWildcard = fun c => Mark.ofChar c == .wildcard := by
    funext c
    unfold Mark.ofChar
    cases isWildcard c <;> cases isSeparator c <;> rfl
  rw [hkind, getElem?_marks_iff (by decide)]

/-! ## Stretches -/

/-- A part of a pattern by its places. -/
structure Stretch where
  /-- The place where it begins. -/
  start : Nat
  /-- The place behind its last character: that of the separator behind it, or the end. -/
  stop : Nat
  /-- Whether the scanner says that it has a wildcard. -/
  wild : Bool
  deriving DecidableEq, Repr

/-- The characters of a stretch. -/
def Stretch.text (pattern : Text) (s : Stretch) : Text := (pattern.take s.stop).drop s.start

/-- **The stretches that are found from a place on**: each one by a new scan that begins behind the
separator at the end of the one before, until the end of the pattern is reached. -/
inductive CutsAlong (fs : Flags) (pattern : Text) : Nat → List Stretch → Prop
  /-- The scan comes to the end. -/
  | last {pos : Nat} {wild : Bool}
    (h : partStop fs.escapes pattern pos true = (pattern.length, wild)) :
    CutsAlong fs pattern pos [⟨pos, pattern.length, wild⟩]
  /-- The scan stops, and goes on behind the character there. -/
  | next {pos stop : Nat} {wild : Bool} {rest : List Stretch}
    (h : partStop fs.escapes pattern pos true = (stop, wild)) (hstop : stop ≠ pattern.length)
    (hrest : CutsAlong fs pattern (stop + 1) rest) :
    CutsAlong fs pattern pos (⟨pos, stop, wild⟩ :: rest)

/-- The characters of stretches, with the single characters that stand between them. -/
def tiledText (pattern : Text) : List Stretch → Text
  | [] => []
  | [s] => s.text pattern
  | s :: u :: rest => s.text pattern ++ pattern[s.stop]?.toList ++ tiledText pattern (u :: rest)

/-- **A stretch of a pattern as it has to be.** -/
structure Stretch.Fits (fs : Flags) (pattern : Text) (s : Stretch) : Prop where
  /-- It lies in the pattern. -/
  bounds : s.start ≤ s.stop ∧ s.stop ≤ pattern.length
  /-- It ends at an unescaped separator, if not at the end. -/
  separator : s.stop ≠ pattern.length → UnescapedAt fs pattern isSeparator s.stop
  /-- With a wildcard it is a single segment. -/
  wild : s.wild = true →
    (∃ i, s.start ≤ i ∧ i < s.stop ∧ UnescapedAt fs pattern isWildcard i) ∧
      ∀ i, s.start ≤ i → i < s.stop → ¬UnescapedAt fs pattern isSeparator i
  /-- Otherwise it has no wildcard. -/
  literal : s.wild = false →
    ∀ i, s.start ≤ i → i < s.stop → ¬UnescapedAt fs pattern isWildcard i

/-- The same stretches are found again. -/
theorem CutsAlong.unique {ps qs : List Stretch} (h : CutsAlong fs pattern pos ps)
    (h' : CutsAlong fs pattern pos qs) : qs = ps := by
  induction h generalizing qs with
  | last h =>
    cases h' with
    | last hq =>
      rw [h] at hq
      cases hq
      rfl
    | next hq hstop _ =>
      rw [h] at hq
      cases hq
      exact absurd rfl hstop
  | next h hstop _ ih =>
    cases h' with
    | last hq =>
      rw [h] at hq
      cases hq
      exact absurd rfl hstop
    | next hq _ hrest =>
      rw [h] at hq
      cases hq
      rw [ih hrest]

/-! ## Cuts -/

/-- The part of a cut has a wildcard exactly if it says so. -/
theorem Cuts.isWild_text (h : Cuts fs t part) : fs.isWild part.text = part.wild := by
  cases h <;> assumption

/-- A part with a wildcard has no separator. -/
theorem Cuts.separator_not_mem (h : Cuts fs t part) (hw : part.wild = true) :
    Mark.separator ∉ marks fs.escapes part.text := by
  cases h with
  | rest _ => cases hw
  | lead _ _ _ _ _ => cases hw
  | last _ hs => exact hs
  | segment _ _ _ hs => exact hs

/-- **A part is all there is, or a separator stands behind it.** Behind a part without a wildcard there
is one in the next segment. -/
theorem Cuts.ends (h : Cuts fs t part) :
    part.text = t ∨ ∃ c u, t = part.text ++ c :: u ∧ isSeparator c = true ∧ fs.Whole part.text ∧
      (part.wild = false →
        fs.isWild u = true ∧ .separator ∉ beforeWildcard (marks fs.escapes u)) := by
  cases h with
  | rest _ => exact .inl rfl
  | last _ _ => exact .inl rfl
  | lead ht hc _ hu hfirst => exact .inr ⟨_, _, rfl, hc, ht, fun _ => ⟨hu, hfirst⟩⟩
  | segment ht hc _ _ => exact .inr ⟨_, _, rfl, hc, ht, fun h => by cases h⟩

/-- The characters of a part have the same marks in the part. -/
theorem Cuts.marks_prefix (h : Cuts fs t part) :
    marks fs.escapes part.text <+: marks fs.escapes t := by
  rcases h.ends with heq | ⟨c, u, heq, -, hwhole, -⟩
  · exact heq ▸ List.prefix_refl _
  · rw [heq, hwhole.marks_append]
    exact List.prefix_append _ _

/-- **A pattern whose first wildcard stands in its first segment begins with a part that has it.** -/
theorem Cuts.wild_of_front (h : Cuts fs t part) (hw : fs.isWild t = true)
    (hfirst : .separator ∉ beforeWildcard (marks fs.escapes t)) : part.wild = true := by
  cases h with
  | rest hnot =>
    rw [hw] at hnot
    cases hnot
  | lead ht hc hlead _ _ =>
    rw [ht.beforeWildcard_lead hc hlead] at hfirst
    simp at hfirst
  | last _ _ => rfl
  | segment _ _ _ _ => rfl

/-! ## A single scan -/

/-- **A place from which a scanner sees the marks of the pattern**: no escape is open there. -/
structure Flags.Aligned (fs : Flags) (pattern : Text) (pos : Nat) : Prop where
  /-- The place is not behind the end. -/
  le : pos ≤ pattern.length
  /-- What is behind it has the same marks without what is in front of it. -/
  drop_marks : (marks fs.escapes pattern).drop pos = marks fs.escapes (pattern.drop pos)

/-- No escape is open at the beginning. -/
theorem Flags.aligned_zero (fs : Flags) (pattern : Text) : fs.Aligned pattern 0 :=
  ⟨Nat.zero_le _, rfl⟩

/-- Nothing is behind the end. -/
theorem Flags.aligned_length (fs : Flags) (pattern : Text) : fs.Aligned pattern pattern.length := by
  refine ⟨Nat.le_refl _, ?_⟩
  rw [List.drop_length, List.drop_eq_nil_of_le (Nat.le_of_eq (length_marks fs.escapes pattern))]
  rfl

/-- No escape is open behind a whole text. -/
theorem Flags.Whole.aligned (hle : pos ≤ pattern.length) (h : fs.Whole (pattern.take pos)) :
    fs.Aligned pattern pos := by
  refine ⟨hle, ?_⟩
  have hmarks := h.marks_append (pattern.drop pos)
  rw [List.take_append_drop] at hmarks
  rw [hmarks, List.drop_left' (by rw [length_marks, List.length_take_of_le hle])]

section

variable {stop : Nat} {wild : Bool}

/-- The characters behind such a place have the same marks in the whole pattern. -/
theorem Flags.Aligned.getElem?_marks (h : fs.Aligned pattern pos) (i : Nat) :
    (marks fs.escapes pattern)[pos + i]? = (marks fs.escapes (pattern.drop pos))[i]? := by
  rw [← h.drop_marks, List.getElem?_drop]

/-- **A scan finds the next part of what is behind the place.** -/
theorem Flags.Aligned.exists_cut (h : fs.Aligned pattern pos) :
    ∃ part, Cuts fs (pattern.drop pos) part ∧
      partStop fs.escapes pattern pos true = (pos + part.text.length, part.wild) := by
  refine ⟨Part.next fs.escapes (pattern.drop pos), cuts_next fs _, ?_⟩
  have hle := partEnd_le (marks fs.escapes (pattern.drop pos))
  rw [length_marks] at hle
  simp only [partStop, Part.next, Nat.min_eq_left h.le, if_true, List.length_take_of_le hle]

section

variable (h : fs.Aligned pattern pos) (hcut : Cuts fs (pattern.drop pos) part)

include h hcut

/-- The part lies in the pattern. -/
theorem Flags.Aligned.part_le : pos + part.text.length ≤ pattern.length := by
  have hle := hcut.marks_prefix.length_le
  have hpos := h.le
  rw [length_marks, length_marks, List.length_drop] at hle
  omega

/-- The characters of the part have the same marks in the whole pattern. -/
theorem Flags.Aligned.getElem?_marks_part {k : Nat} (hk : k < part.text.length) :
    (marks fs.escapes pattern)[pos + k]? = (marks fs.escapes part.text)[k]? := by
  obtain ⟨ns, hns⟩ := hcut.marks_prefix
  rw [h.getElem?_marks, ← hns, List.getElem?_append_left (by rwa [length_marks])]

/-- A mark at a place of the part is one of its marks. -/
theorem Flags.Aligned.mem_marks_part {m : Mark} (hi : pos ≤ i) (hlt : i < pos + part.text.length)
    (hm : (marks fs.escapes pattern)[i]? = some m) : m ∈ marks fs.escapes part.text := by
  obtain ⟨k, rfl⟩ := Nat.exists_eq_add_of_le hi
  rw [h.getElem?_marks_part hcut (Nat.lt_of_add_lt_add_left hlt)] at hm
  exact List.mem_of_getElem? hm

/-- If the part does not reach the end, a separator stands behind it. -/
theorem Flags.Aligned.exists_separator (hne : pos + part.text.length ≠ pattern.length) :
    ∃ c u, pattern.drop pos = part.text ++ c :: u ∧ isSeparator c = true ∧ fs.Whole part.text ∧
      (part.wild = false →
        fs.isWild u = true ∧ .separator ∉ beforeWildcard (marks fs.escapes u)) := by
  refine hcut.ends.resolve_left fun heq => hne ?_
  have hlen := congrArg List.length heq
  have hpos := h.le
  rw [List.length_drop] at hlen
  omega

end

/-- **The stretch that a scan finds is as it has to be.** -/
theorem Flags.Aligned.fits (h : fs.Aligned pattern pos)
    (hstop : partStop fs.escapes pattern pos true = (stop, wild)) :
    Stretch.Fits fs pattern ⟨pos, stop, wild⟩ := by
  obtain ⟨part, hcut, hpart⟩ := h.exists_cut
  obtain ⟨rfl, rfl⟩ := Prod.mk.inj (hstop.symm.trans hpart)
  constructor
  · exact ⟨Nat.le_add_right _ _, h.part_le hcut⟩
  · intro hne
    obtain ⟨c, u, heq, hc, hwhole, -⟩ := h.exists_separator hcut hne
    rw [unescapedAt_separator_iff, h.getElem?_marks, heq, hwhole.marks_separator hc,
      List.getElem?_append_right (by simp), length_marks, Nat.sub_self]
    rfl
  · intro hw
    constructor
    · have hwild := Flags.isWild_iff.1 (hcut.isWild_text.trans hw)
      obtain ⟨k, hk⟩ := List.mem_iff_getElem?.1 hwild
      obtain ⟨hlt, -⟩ := List.getElem?_eq_some_iff.1 hk
      rw [length_marks] at hlt
      refine ⟨pos + k, Nat.le_add_right _ _, Nat.add_lt_add_left hlt pos, ?_⟩
      rw [unescapedAt_wildcard_iff, h.getElem?_marks_part hcut hlt, hk]
    · intro i hi hlt hsep
      rw [unescapedAt_separator_iff] at hsep
      exact hcut.separator_not_mem hw (h.mem_marks_part hcut hi hlt hsep)
  · intro hw i hi hlt hwild
    rw [unescapedAt_wildcard_iff] at hwild
    have hnot := Flags.isWild_eq_false_iff.1 (hcut.isWild_text.trans hw)
    exact hnot (h.mem_marks_part hcut hi hlt hwild)

/-- **Behind the end of a stretch no escape is open**, and if the stretch has no wildcard, the next one
has. -/
theorem Flags.Aligned.next (h : fs.Aligned pattern pos)
    (hstop : partStop fs.escapes pattern pos true = (stop, wild)) (hne : stop ≠ pattern.length) :
    fs.Aligned pattern (stop + 1) ∧
      (wild = false → (partStop fs.escapes pattern (stop + 1) true).2 = true) := by
  obtain ⟨part, hcut, hpart⟩ := h.exists_cut
  obtain ⟨rfl, rfl⟩ := Prod.mk.inj (hstop.symm.trans hpart)
  obtain ⟨c, u, heq, hc, hwhole, hbehind⟩ := h.exists_separator hcut hne
  have hstep : pos + part.text.length + 1 = pos + (part.text ++ [c]).length := by simp [Nat.add_assoc]
  have hdrop : pattern.drop (pos + part.text.length + 1) = u := by
    rw [hstep, ← List.drop_drop, heq, List.append_cons part.text c u]
    exact List.drop_left
  have halign : fs.Aligned pattern (pos + part.text.length + 1) := by
    refine ⟨Nat.lt_of_le_of_ne (h.part_le hcut) hne, ?_⟩
    rw [hdrop, Nat.add_assoc, ← List.drop_drop, h.drop_marks, heq, hwhole.marks_separator hc,
      List.append_cons]
    exact List.drop_left' (by simp)
  refine ⟨halign, fun hw => ?_⟩
  -- the first wildcard behind the separator stands in the first segment there
  obtain ⟨later, hlater, hstop'⟩ := halign.exists_cut
  obtain ⟨hu, hfirst⟩ := hbehind hw
  rw [hdrop] at hlater
  rw [hstop']
  exact hlater.wild_of_front hu hfirst

end

/-! ## Scan after scan -/

/-- **Scan after scan comes to the end of the pattern.** -/
theorem Flags.Aligned.exists_cutsAlong (h : fs.Aligned pattern pos) :
    ∃ ps, CutsAlong fs pattern pos ps := by
  -- each scan begins behind the end of the one before
  induction hn : pattern.length - pos using Nat.strongRecOn generalizing pos with
  | _ n shorter =>
    cases hscan : partStop fs.escapes pattern pos true with
    | mk stop wild =>
      by_cases hstop : stop = pattern.length
      · rw [hstop] at hscan
        exact ⟨_, .last hscan⟩
      · obtain ⟨hle, hle'⟩ := (h.fits hscan).bounds
        obtain ⟨rest, hrest⟩ := shorter (pattern.length - (stop + 1)) (by
          simp only at hle hle'
          omega) (h.next hscan hstop).1 rfl
        exact ⟨_, .next hscan hstop hrest⟩

section

variable {ps : List Stretch} (hcuts : CutsAlong fs pattern pos ps)

include hcuts

/-- The first stretch is that of the first scan. -/
theorem CutsAlong.exists_cons :
    ∃ rest, ps = ⟨pos, (partStop fs.escapes pattern pos true).1,
      (partStop fs.escapes pattern pos true).2⟩ :: rest := by
  cases hcuts with
  | last h => exact ⟨[], by rw [h]⟩
  | next h _ _ => exact ⟨_, by rw [h]⟩

/-- **All stretches are as they have to be.** -/
theorem CutsAlong.forall_fits (h : fs.Aligned pattern pos) : ∀ s ∈ ps, s.Fits fs pattern := by
  induction hcuts with
  | last hscan =>
    intro s hs
    rw [List.mem_singleton.1 hs]
    exact h.fits hscan
  | next hscan hstop _ ih =>
    intro s hs
    rcases List.mem_cons.1 hs with rfl | hs
    · exact h.fits hscan
    · exact ih (h.next hscan hstop).1 s hs

/-- **Behind a stretch without a wildcard stands one that has one.** -/
theorem CutsAlong.isChain (h : fs.Aligned pattern pos) :
    ps.IsChain fun s u => s.wild = false → u.wild = true := by
  induction hcuts with
  | last _ => exact .singleton _
  | next hscan hstop hrest ih =>
    obtain ⟨halign, hwild⟩ := h.next hscan hstop
    obtain ⟨rest, rfl⟩ := hrest.exists_cons
    exact .cons_cons hwild (ih halign)

/-- **The stretches and the characters between them give back the pattern.** -/
theorem CutsAlong.tiledText_eq (h : fs.Aligned pattern pos) :
    tiledText pattern ps = pattern.drop pos := by
  induction hcuts with
  | last _ => simp [tiledText, Stretch.text]
  | @next pos stop wild rest hscan hstop hrest ih =>
    obtain ⟨hle, hle'⟩ := (h.fits hscan).bounds
    have hlt : stop < pattern.length := Nat.lt_of_le_of_ne hle' hstop
    have htail := ih (h.next hscan hstop).1
    obtain ⟨later, rfl⟩ := hrest.exists_cons
    have hfront : pos ≤ (pattern.take stop).length := by
      rwa [List.length_take_of_le hle']
    calc
      tiledText pattern (⟨pos, stop, wild⟩ :: _) =
          (pattern.take stop).drop pos ++ pattern[stop]?.toList ++ pattern.drop (stop + 1) := by
        rw [tiledText, htail, Stretch.text]
      _ = (pattern.take stop).drop pos ++ pattern.drop stop := by
        rw [List.getElem?_eq_getElem hlt, List.drop_eq_getElem_cons hlt, List.append_assoc]
        rfl
      _ = pattern.drop pos := by
        rw [← List.drop_append_of_le_length hfront, List.take_append_drop]

end

/-! ## The leading segments -/

/-- Where the leading segments end; without such segments this is the beginning. -/
theorem partStop_lead (escapes : Bool) (pattern : Text) :
    (partStop escapes pattern 0 false).1 = (leadEnd? (marks escapes pattern)).getD 0 := by
  unfold partStop
  cases h : leadEnd? (marks escapes pattern) with
  | none => simp [h]
  | some n => simp [h]

/-- The leading segments do not reach beyond the end. -/
theorem leadEnd?_le {ms : List Mark} {n : Nat} (h : leadEnd? ms = some n) : n ≤ ms.length := by
  unfold leadEnd? at h
  split at h
  · have hfront := List.IsPrefix.length_le <| beforeWildcard_prefix ms
    exact (behindLastSeparator?_bounds h).2.trans hfront
  · exact Nat.le_of_eq (Option.some.inj h).symm

/-- **No escape is open behind the leading segments.** -/
theorem Flags.aligned_lead (fs : Flags) (pattern : Text) :
    fs.Aligned pattern (partStop fs.escapes pattern 0 false).1 := by
  rw [partStop_lead]
  cases h : leadEnd? (marks fs.escapes pattern) with
  | none => exact fs.aligned_zero pattern
  | some n =>
    by_cases hn : n = pattern.length
    · -- an escape may be open at the very end, but nothing is behind it
      rw [hn]
      exact fs.aligned_length pattern
    · have hle := leadEnd?_le h
      rw [length_marks] at hle
      exact (Flags.whole_take_leadEnd? h hn).aligned hle

/-- What stands in a stretch of a list has a place there. -/
theorem exists_of_mem_drop_take {ms : List Mark} {m : Mark} {k n : Nat}
    (h : m ∈ (ms.take n).drop k) : ∃ i, k ≤ i ∧ i < n ∧ ms[i]? = some m := by
  obtain ⟨i, hi⟩ := List.mem_iff_getElem?.1 h
  rw [List.getElem?_drop, List.getElem?_take, Option.ite_none_right_eq_some] at hi
  exact ⟨k + i, Nat.le_add_right k i, hi⟩

section

variable {first : Nat} (hfirst : UnescapedAt fs pattern isWildcard first)
  (hfront : ∀ i < first, ¬UnescapedAt fs pattern isWildcard i)

/-- Without a wildcard the leading segments are all there is. -/
theorem partStop_lead_of_forall (h : ∀ i, ¬UnescapedAt fs pattern isWildcard i) :
    (partStop fs.escapes pattern 0 false).1 = pattern.length := by
  have hnot : Mark.wildcard ∉ marks fs.escapes pattern := by
    intro hmem
    obtain ⟨i, hi⟩ := List.mem_iff_getElem?.1 hmem
    exact h i (unescapedAt_wildcard_iff.2 hi)
  rw [partStop_lead, leadEnd?, if_neg hnot, length_marks, Option.getD_some]

include hfirst hfront

/-- The marks in front of the first wildcard. -/
theorem beforeWildcard_eq_take :
    beforeWildcard (marks fs.escapes pattern) = (marks fs.escapes pattern).take first := by
  rw [unescapedAt_wildcard_iff] at hfirst
  obtain ⟨hlt, hwild⟩ := List.getElem?_eq_some_iff.1 hfirst
  have hnot : Mark.wildcard ∉ (marks fs.escapes pattern).take first := by
    intro hmem
    obtain ⟨i, -, hlt', hi⟩ := exists_of_mem_drop_take (k := 0) hmem
    exact hfront i hlt' (unescapedAt_wildcard_iff.2 hi)
  have hsplit : marks fs.escapes pattern = (marks fs.escapes pattern).take first ++
      .wildcard :: (marks fs.escapes pattern).drop (first + 1) := by
    rw [← hwild, ← List.drop_eq_getElem_cons hlt, List.take_append_drop]
  conv_lhs => rw [hsplit]
  rw [beforeWildcard_append hnot]
  simp [beforeWildcard]

/-- In front of a wildcard the leading segments end behind the last separator. -/
theorem partStop_lead_of_first :
    (partStop fs.escapes pattern 0 false).1 =
      (behindLastSeparator? ((marks fs.escapes pattern).take first)).getD 0 := by
  have hmem := List.mem_of_getElem? (unescapedAt_wildcard_iff.1 hfirst)
  rw [partStop_lead, leadEnd?, if_pos hmem, beforeWildcard_eq_take hfirst hfront]

/-- Without a separator in front of the first wildcard they end at the beginning. -/
theorem partStop_lead_eq_zero (h : ∀ i < first, ¬UnescapedAt fs pattern isSeparator i) :
    (partStop fs.escapes pattern 0 false).1 = 0 := by
  rw [partStop_lead_of_first hfirst hfront, behindLastSeparator?_of_not_mem]
  · rfl
  · intro hmem
    obtain ⟨i, -, hlt, hi⟩ := exists_of_mem_drop_take (k := 0) hmem
    exact h i hlt (unescapedAt_separator_iff.2 hi)

/-- The last separator in front of the first wildcard ends them. -/
theorem partStop_lead_eq_succ {last : Nat} (hlast : last < first)
    (hsep : UnescapedAt fs pattern isSeparator last)
    (h : ∀ i, last < i → i < first → ¬UnescapedAt fs pattern isSeparator i) :
    (partStop fs.escapes pattern 0 false).1 = last + 1 := by
  rw [unescapedAt_separator_iff, ← List.getElem?_take_of_lt hlast] at hsep
  obtain ⟨hlt, heq⟩ := List.getElem?_eq_some_iff.1 hsep
  have hnot : Mark.separator ∉ ((marks fs.escapes pattern).take first).drop (last + 1) := by
    intro hmem
    obtain ⟨i, hle, hlt', hi⟩ := exists_of_mem_drop_take hmem
    exact h i hle hlt' (unescapedAt_separator_iff.2 hi)
  have hsplit := List.take_append_drop last ((marks fs.escapes pattern).take first)
  rw [List.drop_eq_getElem_cons hlt, heq] at hsplit
  rw [partStop_lead_of_first hfirst hfront, ← hsplit, behindLastSeparator?_append_cons _ hnot,
    Option.getD_some, List.length_take_of_le (Nat.le_of_lt hlt)]

end

/-! ## The main statement -/

/-- **The parts of a pattern tile it.** From the beginning, and from behind the leading segments, scan
after scan comes to the end of the pattern, in one way only. The stretches found and the characters
between them give back the pattern from there on. Each stretch ends at an unescaped separator or at the
end. One with a wildcard is a single segment; one without is the last or stands in front of one with a
wildcard. The leading segments are the whole pattern if it has no unescaped wildcard, and otherwise end
behind the last unescaped separator in front of the first one, or at the beginning if there is none. -/
theorem stretches_tile (fs : Flags) (pattern : Text) :
    (∀ pos, pos = 0 ∨ pos = (partStop fs.escapes pattern 0 false).1 →
      ∃ ps, CutsAlong fs pattern pos ps ∧ (∀ qs, CutsAlong fs pattern pos qs → qs = ps) ∧
        tiledText pattern ps = pattern.drop pos ∧ (∀ s ∈ ps, s.Fits fs pattern) ∧
        ps.IsChain fun s u => s.wild = false → u.wild = true) ∧
    ((∀ i, ¬UnescapedAt fs pattern isWildcard i) →
      (partStop fs.escapes pattern 0 false).1 = pattern.length) ∧
    ∀ first, UnescapedAt fs pattern isWildcard first →
      (∀ i < first, ¬UnescapedAt fs pattern isWildcard i) →
        ((∀ i < first, ¬UnescapedAt fs pattern isSeparator i) →
          (partStop fs.escapes pattern 0 false).1 = 0) ∧
        ∀ last < first, UnescapedAt fs pattern isSeparator last →
          (∀ i, last < i → i < first → ¬UnescapedAt fs pattern isSeparator i) →
            (partStop fs.escapes pattern 0 false).1 = last + 1 := by
  refine ⟨?_, partStop_lead_of_forall, ?_⟩
  · intro pos hpos
    have halign : fs.Aligned pattern pos := by
      rcases hpos with rfl | rfl
      · exact fs.aligned_zero pattern
      · exact fs.aligned_lead pattern
    obtain ⟨ps, hcuts⟩ := halign.exists_cutsAlong
    exact ⟨ps, hcuts, fun _ hqs => hcuts.unique hqs, hcuts.tiledText_eq halign,
      hcuts.forall_fits halign, hcuts.isChain halign⟩
  · intro first hfirst hfront
    exact ⟨partStop_lead_eq_zero hfirst hfront, fun last hlast hsep hbehind =>
      partStop_lead_eq_succ hfirst hfront hlast hsep hbehind⟩

/-- A pattern with an escaped star, two separators in a row, and one at the end. -/
theorem stretches_tile_escaped :
    CutsAlong ⟨0⟩ "a\\*//b*:[c/".toList 0
        [⟨0, 4, false⟩, ⟨5, 7, true⟩, ⟨8, 10, true⟩, ⟨11, 11, false⟩] ∧
      tiledText "a\\*//b*:[c/".toList
        [⟨0, 4, false⟩, ⟨5, 7, true⟩, ⟨8, 10, true⟩, ⟨11, 11, false⟩] = "a\\*//b*:[c/".toList ∧
      (partStop true "a\\*//b*:[c/".toList 0 false).1 = 5 := by
  obtain ⟨hruns, -, hlead⟩ := stretches_tile ⟨0⟩ "a\\*//b*:[c/".toList
  have hcuts : CutsAlong ⟨0⟩ "a\\*//b*:[c/".toList 0
      [⟨0, 4, false⟩, ⟨5, 7, true⟩, ⟨8, 10, true⟩, ⟨11, 11, false⟩] :=
    .next (by decide) (by decide) (.next (by decide) (by decide)
      (.next (by decide) (by decide) (.last (by decide))))
  obtain ⟨ps, -, hunique, htext, -⟩ := hruns 0 (.inl rfl)
  rw [← hunique _ hcuts] at htext
  refine ⟨hcuts, htext, (hlead 6 (by decide) (by decide)).2 4 (by decide) (by decide) ?_⟩
  intro i hbehind hfront
  obtain rfl : i = 5 := by omega
  decide

end PathGlob
