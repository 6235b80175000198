import PathGlob.Proofs.Segment.MalformedClasses

/-! # Letters in either case
Where letters match without regard to case, an engine looks at the small letter of each character of a
name. So it makes no difference to the answer in which case the letters of the name are, whatever
literals, ranges and negated classes the segment has; and a segment without classes and escapes can be
written in either case as well.

* **`SameSmall`** — characters with the same small letter.
* **`toNat_toLower`**, **`sameSmall_of_toLower_eq`** — the letters from `a` to `z` in either case.
* **`tokensAccept_congr_name`**, **`tokensAccept_congr_tokens`** — what is used up by tokens.
* **`nameMatches_congr_name`**, **`nameMatches_congr_segment`** — the same for characters of any
  alphabet.
* **`nameMatches_eitherCase`** — the main statement. -/

namespace PathGlob

/-! ## Small letters -/

/-- **Characters with the same small letter.** -/
def SameSmall (a b : Char) : Prop := smallCode a.toNat = smallCode b.toNat

/-- A character in front of the `a` that is its own small letter is that of no other one. -/
theorem SameSmall.eq_of_lt {a b : Char} (h : SameSmall a b) (hsmall : smallCode a.toNat = a.toNat)
    (ha : a.toNat < 97) : a = b := by
  have hb : smallCode b.toNat = a.toNat := h.symm.trans hsmall
  exact Char.toNat_inj.1 (eq_of_smallCode_eq ha hb).symm

/-- The characters with a meaning of their own. -/
def caselessMarks : List Char := ['*', '?', '[', '\\', '.', '/']

/-- They have no other case. -/
theorem SameSmall.eq_iff {a b c : Char} (h : SameSmall a b) (hc : c ∈ caselessMarks) :
    a = c ↔ b = c := by
  have hown : caselessMarks.all (fun d => smallCode d.toNat == d.toNat && d.toNat < 97) = true := by
    decide +kernel
  obtain ⟨hsmall, hlt⟩ : smallCode c.toNat = c.toNat ∧ c.toNat < 97 := by
    simpa using List.all_eq_true.1 hown c hc
  constructor
  · rintro rfl
    exact (h.eq_of_lt hsmall hlt).symm
  · rintro rfl
    exact (SameSmall.eq_of_lt h.symm hsmall hlt).symm

/-- So it makes no difference to a test for such a mark. -/
theorem SameSmall.beq_eq {a b c : Char} (h : SameSmall a b) (hc : c ∈ caselessMarks) :
    (a == c) = (b == c) := by
  rw [Bool.eq_iff_iff, beq_iff_eq, beq_iff_eq, h.eq_iff hc]

/-- Texts with the same small letters have the same marks. -/
theorem mem_congr_sameSmall {t u : Text} (h : List.Forall₂ SameSmall t u) {c : Char}
    (hc : c ∈ caselessMarks) : c ∈ t ↔ c ∈ u := by
  induction h with
  | nil => rfl
  | cons hab _ ih => rw [List.mem_cons, List.mem_cons, ih, eq_comm, hab.eq_iff hc, eq_comm]

/-- The code point of a letter from `A` to `Z` in small. -/
theorem toNat_toLower (c : Char) :
    c.toLower.toNat = if 65 ≤ c.toNat ∧ c.toNat ≤ 90 then c.toNat + 32 else c.toNat := by
  have hiff : (c.val ≥ 'A'.val ∧ c.val ≤ 'Z'.val) ↔ 65 ≤ c.toNat ∧ c.toNat ≤ 90 := by
    simp [UInt32.le_iff_toNat_le]
  delta Char.toLower
  by_cases h : c.val ≥ 'A'.val ∧ c.val ≤ 'Z'.val
  · rw [dif_pos h, if_pos (hiff.1 h)]
    have hbound : c.toNat ≤ 90 := (hiff.1 h).2
    show (c.val + 32).toNat = c.val.toNat + 32
    rw [UInt32.toNat_add]
    exact Nat.mod_eq_of_lt (by simp; omega)
  · rw [dif_neg h, if_neg (mt hiff.2 h)]

/-- Such a letter in small has the same small letter. -/
theorem smallCode_toLower (c : Char) : smallCode c.toLower.toNat = smallCode c.toNat := by
  have hletters : ∀ k < 26, smallCode (k + 65 + 32) = smallCode (k + 65) := by decide +kernel
  rw [toNat_toLower]
  split
  · have hletter := hletters (c.toNat - 65) (by omega)
    rwa [Nat.sub_add_cancel (by omega)] at hletter
  · rfl

/-- Texts that differ only in the case of letters from `a` to `z` have the same small letters. -/
theorem sameSmall_of_toLower_eq {t u : Text} (h : t.map Char.toLower = u.map Char.toLower) :
    List.Forall₂ SameSmall t u := by
  rw [← List.forall₂_eq_eq_eq, List.forall₂_map_left_iff, List.forall₂_map_right_iff] at h
  refine h.imp fun a b hab => ?_
  rw [SameSmall, ← smallCode_toLower a, hab, smallCode_toLower]

/-! ## Tokens -/

section

variable {fs : Flags} {ts us : List Token} {n n' p p' : Text}

/-- **Tokens use up names in either case.** -/
theorem tokensAccept_congr_name (hcase : fs.has .ignoreCase = true) (ts : List Token)
    (h : List.Forall₂ SameSmall n n') : tokensAccept fs ts n = tokensAccept fs ts n' := by
  have hrun : ∀ a b, SameSmall a b → fs.inRun a = fs.inRun b := by
    intro a b hab
    rw [Flags.inRun, Flags.inRun, hab.beq_eq (by decide)]
  refine tokensAccept_related hrun (fun t a b hab => ?_) ts h
  rw [hcase]
  exact Token.holds_congr hab t

/-- **Tokens that stand for the same letters**: they are equal, or literals with the same small letter,
neither of which is a dot. -/
def Token.SameLetters (t u : Token) : Prop :=
  t = u ∨ ∃ a b, SameSmall a b ∧ a ≠ '.' ∧ b ≠ '.' ∧ t = .literal a ∧ u = .literal b

/-- Unescaped characters with the same small letter make such tokens. -/
theorem SameSmall.ofChar {a b : Char} (h : SameSmall a b) :
    (Token.ofChar a).SameLetters (Token.ofChar b) := by
  by_cases hab : a = b
  · exact .inl (by rw [hab])
  have hne : ∀ c ∈ caselessMarks, a ≠ c ∧ b ≠ c := by
    intro c hc
    have hiff := h.eq_iff hc
    refine ⟨fun ha => hab ?_, fun hb => hab ?_⟩
    · rw [hiff.1 ha, ha]
    · rw [hiff.2 hb, hb]
  obtain ⟨hrun, hrun'⟩ := hne '*' (by decide)
  obtain ⟨hany, hany'⟩ := hne '?' (by decide)
  obtain ⟨hdot, hdot'⟩ := hne '.' (by decide)
  refine .inr ⟨a, b, h, hdot, hdot', ?_, ?_⟩
  · rw [Token.ofChar, if_neg hrun, if_neg hany]
  · rw [Token.ofChar, if_neg hrun', if_neg hany']

/-- **Tokens that stand for the same letters use up the same names.** -/
theorem tokensAccept_congr_tokens (hcase : fs.has .ignoreCase = true)
    (h : List.Forall₂ Token.SameLetters ts us) (n : Text) :
    tokensAccept fs ts n = tokensAccept fs us n := by
  induction h generalizing n with
  | nil => rfl
  | @cons t u ts us htu _ ih =>
    rcases htu with rfl | ⟨a, b, hab, -, -, rfl, rfl⟩
    · by_cases hrun : t = .anyRun
      · subst hrun
        rw [tokensAccept, tokensAccept, funext ih]
      · rw [Bool.eq_iff_iff, tokensAccept_cons_iff hrun, tokensAccept_cons_iff hrun]
        simp only [ih]
    · have hholds : ∀ d, (Token.literal a).holds true d = (Token.literal b).holds true d := by
        intro d
        simp only [Token.holds, if_true, sameLetter, show smallCode a.toNat = smallCode b.toNat from hab]
      rw [Bool.eq_iff_iff, tokensAccept_cons_iff (by simp), tokensAccept_cons_iff (by simp), hcase]
      simp only [ih, hholds]

/-- They spell out a dot in the same place. -/
theorem explicitDot_congr (h : List.Forall₂ Token.SameLetters ts us) :
    (⟨ts⟩ : Segment).explicitDot = (⟨us⟩ : Segment).explicitDot := by
  cases h with
  | nil => rfl
  | cons htu _ =>
    rcases htu with rfl | ⟨a, b, -, ha, hb, rfl, rfl⟩
    · rfl
    · simp [Segment.explicitDot, Token.isDot, ha, hb]

/-- A segment without classes and escapes has a token for each character. -/
theorem compile?_map_ofChar (fs : Flags) (hopen : '[' ∉ p) (hescape : '\\' ∉ p) :
    Segment.compile? fs p = some ⟨p.map Token.ofChar⟩ := by
  have hspells : Spells fs.escapes (p.map Token.ofChar) p := by
    induction p with
    | nil => exact .nil
    | cons c r ih =>
      rw [List.mem_cons, not_or] at hopen hescape
      exact (spells_cons_iff (fun _ => Ne.symm hescape.1) (Ne.symm hopen.1)).2
        ⟨_, ih hopen.2 hescape.2, rfl⟩
  refine Segment.compile?_eq_some_iff.2 ⟨hspells, fun t ht => ?_⟩
  obtain ⟨c, -, rfl⟩ := List.mem_map.1 ht
  exact Token.isOrdered_ofChar c

/-! ## Names and segments -/

/-- **A segment matches a name in either case.** -/
theorem nameMatches_congr_name (hcase : fs.has .ignoreCase = true) (pattern : Text)
    (h : List.Forall₂ SameSmall n n') : nameMatches fs pattern n = nameMatches fs pattern n' := by
  have hempty : n.isEmpty = n'.isEmpty := by cases h <;> rfl
  have hhidden : isHidden n = isHidden n' := by
    cases h with
    | nil => rfl
    | cons hab _ => exact hab.beq_eq (c := '.') (by decide)
  have haccepts : ∀ g : Segment, g.accepts fs n = g.accepts fs n' := fun g =>
    tokensAccept_congr_name hcase g.tokens h
  unfold nameMatches NameMatcher.ofSegment NameMatcher.accepts
  simp only [hempty, hhidden, haccepts]

/-- **A segment without classes and escapes matches the same names in either case.** -/
theorem nameMatches_congr_segment (hcase : fs.has .ignoreCase = true)
    (h : List.Forall₂ SameSmall p p') (hopen : '[' ∉ p) (hescape : '\\' ∉ p) (n : Text) :
    nameMatches fs p n = nameMatches fs p' n := by
  have hcompile := compile?_map_ofChar fs hopen hescape
  have hcompile' := compile?_map_ofChar fs (mt (mem_congr_sameSmall h (by decide)).2 hopen)
    (mt (mem_congr_sameSmall h (by decide)).2 hescape)
  have htokens : List.Forall₂ Token.SameLetters (p.map Token.ofChar) (p'.map Token.ofChar) := by
    rw [List.forall₂_map_left_iff, List.forall₂_map_right_iff]
    exact h.imp fun _ _ => SameSmall.ofChar
  cases h with
  | nil => rfl
  | cons hab hr =>
    rw [nameMatches_of_compile? rfl hcompile, nameMatches_of_compile? rfl hcompile',
      explicitDot_congr htokens, Segment.accepts, Segment.accepts,
      tokensAccept_congr_tokens hcase htokens]

end

/-- **Where letters match without regard to case, it makes no difference in which case they are.** A
segment gives the same answer for names that differ only in the case of letters from `a` to `z`,
whatever literals, ranges and classes it has; and if it has no class and no escape, its own letters can
be written in either case. -/
theorem nameMatches_eitherCase {fs : Flags} (hcase : fs.has .ignoreCase = true) :
    (∀ pattern n n' : Text, n.map Char.toLower = n'.map Char.toLower →
      nameMatches fs pattern n = nameMatches fs pattern n') ∧
    ∀ p p' : Text, '[' ∉ p → '\\' ∉ p → p.map Char.toLower = p'.map Char.toLower →
      ∀ n, nameMatches fs p n = nameMatches fs p' n :=
  ⟨fun pattern _ _ h => nameMatches_congr_name hcase pattern (sameSmall_of_toLower_eq h),
    fun _ _ hopen hescape h n =>
      nameMatches_congr_segment hcase (sameSmall_of_toLower_eq h) hopen hescape n⟩

/-- The range of `[^Z-a]*` reaches from a capital letter to a small one, so that neither `z1` nor `Z1`
matches; `B1` and `b1` do. The segment `*B?` can be written `*b?`. -/
theorem nameMatches_eitherCase_range :
    Flags.standard.has .ignoreCase = true ∧
    nameMatches .standard "[^Z-a]*".toList "z1".toList = false ∧
    nameMatches .standard "[^Z-a]*".toList "Z1".toList = false ∧
    nameMatches .standard "[^Z-a]*".toList "B1".toList = true ∧
    nameMatches .standard "[^Z-a]*".toList "b1".toList = true ∧
    nameMatches .standard "*B?".toList "xb1".toList = true ∧
    nameMatches .standard "*b?".toList "xb1".toList = true := by
  have hcase : Flags.standard.has .ignoreCase = true := by decide
  obtain ⟨hnames, hsegments⟩ := nameMatches_eitherCase hcase
  have hsmall : nameMatches .standard "[^Z-a]*".toList "z1".toList = false := by decide +kernel
  have hcapital : nameMatches .standard "[^Z-a]*".toList "B1".toList = true := by decide +kernel
  have hsegment : nameMatches .standard "*B?".toList "xb1".toList = true := by decide +kernel
  refine ⟨hcase, hsmall, ?_, hcapital, ?_, hsegment, ?_⟩
  · rw [← hsmall]
    exact hnames _ _ _ (by decide)
  · rw [← hcapital]
    exact hnames _ _ _ (by decide)
  · rw [← hsegment]
    exact hsegments _ _ (by decide) (by decide) (by decide) _

end PathGlob
