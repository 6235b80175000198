import PathGlob.Proofs.Cuts
import PathGlob.Proofs.Segment.Meaning

/-! # Escaped names
A walk writes the names that it finds with escapes, and several readers meet them afterwards: the one
that removes the escapes of a path, the one that matches segments, and the one that cuts a pattern into
parts. Each of them takes an escaped name for the name.

* **`Flags.whole_iff`** — the texts that do not end inside an escape keep their meaning, whatever
  follows.
* **`spells_escapeName`** — as a segment, an escaped name spells the characters of the name.
* **`nameMatches_escapeName`** — it matches the name alone.
* **`Scope.nameText_readers`** — what all the readers make of it. -/

namespace PathGlob

variable {fs : Flags} {name t : Text}

/-! ## Texts that are whole -/

/-- **A text keeps its meaning, whatever follows it**, exactly if it does not end inside an escape. -/
theorem Flags.whole_iff (he : fs.escapes = true) : fs.Whole t ↔ endsInsideEscape t = false := by
  constructor
  · intro h
    induction t, h using Flags.Whole.induction with
    | nil => rfl
    | char c r hc _ _ ih =>
      rw [endsInsideEscape_cons (by simpa [he] using hc)]
      exact ih
    | escape c r _ _ ih => exact ih
  · intro h
    fun_induction unescape t with
    | case1 => exact .nil
    | case2 c =>
      have hc : c ≠ '\\' := by
        rintro rfl
        cases h
      exact Flags.Whole.nil.cons hc
    | case3 c r ih => exact (ih h).escape he
    | case4 c d r hc ih =>
      rw [endsInsideEscape_cons hc] at h
      exact (ih h).cons hc

/-! ## As a segment -/

/-- What is written without an escape is no backslash and begins no wildcard. -/
theorem needsEscape_eq_false_iff {c : Char} :
    needsEscape c = false ↔ c ≠ '\\' ∧ isWildcard c = false := by
  simp only [needsEscape, isWildcard, Bool.or_eq_false_iff, beq_eq_false_iff_ne, and_assoc]

/-- **An escaped name spells the characters of the name.** -/
theorem spells_escapeName (name : Text) : Spells true (name.map Token.literal) (escapeName name) := by
  induction name with
  | nil => exact .nil
  | cons c r ih =>
    rw [List.map_cons, escapeName_cons, escapeChar]
    cases hc : needsEscape c with
    | true => exact .escaped rfl c ih
    | false =>
      obtain ⟨hb, hw⟩ := needsEscape_eq_false_iff.1 hc
      exact .literal (by simpa [isWildcard, and_assoc] using hw) (fun _ => hb) ih

/-- With regard to case, literal characters use up only the text that they make. -/
theorem tokensAccept_literals (hcase : fs.has .ignoreCase = false) (name m : Text) :
    tokensAccept fs (name.map Token.literal) m = true ↔ m = name := by
  induction name generalizing m with
  | nil => simp
  | cons c name ih =>
    rw [List.map_cons, tokensAccept_cons_iff (by simp)]
    simp only [ih, hcase, Token.holds, Bool.false_eq_true, if_false, beq_iff_eq]
    constructor
    · rintro ⟨d, r, rfl, rfl, rfl⟩
      rfl
    · rintro rfl
      exact ⟨c, name, rfl, rfl, rfl⟩

/-- **An escaped name matches the name alone**, hidden names included. -/
theorem nameMatches_escapeName (he : fs.escapes = true) (hcase : fs.has .ignoreCase = false)
    (name m : Text) : nameMatches fs (escapeName name) m = true ↔ m = name := by
  have hspells := spells_escapeName name
  rw [nameMatches_iff, he]
  constructor
  · rintro (⟨hempty, rfl⟩ | ⟨-, ts, hts, -, hus, -⟩)
    · rw [← unescape_escapeName name, hempty, unescape_nil]
    · rw [hts.unique hspells] at hus
      exact (tokensAccept_literals hcase name m).1 (tokensAccept_iff.2 hus)
  · rintro rfl
    cases m with
    | nil => exact .inl ⟨rfl, rfl⟩
    | cons c r =>
      refine .inr ⟨?_, _, hspells, ?_, ?_, ?_⟩
      · intro hempty
        have hread := unescape_escapeName (c :: r)
        rw [hempty] at hread
        cases hread
      · intro t ht
        obtain ⟨d, -, rfl⟩ := List.mem_map.1 ht
        trivial
      · exact tokensAccept_iff.1 ((tokensAccept_literals hcase _ _).2 rfl)
      · -- a dot at the front is spelled out as the first literal
        intro _ hhead
        obtain rfl : c = '.' := Option.some.inj hhead
        exact ⟨_, _, rfl, .inl rfl⟩

/-! ## As a part -/

/-- The characters with the mark of a wildcard. -/
theorem Mark.ofChar_eq_wildcard_iff {c : Char} :
    Mark.ofChar c = .wildcard ↔ isWildcard c = true := by
  unfold Mark.ofChar
  split
  · simp [*]
  · split <;> simp [*]

/-- **An escaped name has no wildcard.** -/
theorem isWild_escapeName (he : fs.escapes = true) (name : Text) :
    fs.isWild (escapeName name) = false := by
  rw [Flags.isWild_eq_false_iff, he]
  induction name with
  | nil => simp [marks]
  | cons c r ih =>
    rw [escapeName_cons, escapeChar]
    cases hc : needsEscape c with
    | true =>
      rw [if_pos rfl, List.cons_append, List.cons_append, List.nil_append, marks_escape rfl]
      simpa using ih
    | false =>
      obtain ⟨hb, hw⟩ := needsEscape_eq_false_iff.1 hc
      rw [if_neg (by simp), List.cons_append, List.nil_append, marks_cons_of_ne hb, List.mem_cons,
        not_or, eq_comm, Mark.ofChar_eq_wildcard_iff, hw]
      exact ⟨by simp, ih⟩

/-- A pattern without a wildcard is one part, whether or not a wildcard may be in the part. -/
theorem partStop_of_not_isWild (h : fs.isWild t = false) (allowWildcard : Bool) :
    partStop fs.escapes t 0 allowWildcard = (t.length, false) := by
  have hmarks := Flags.isWild_eq_false_iff.1 h
  cases allowWildcard with
  | true => simp [partStop, partEnd_of_not_mem hmarks]
  | false => simp [partStop, leadEnd?, hmarks]

/-! ## All readers -/

/-- **Every reader takes an escaped name for the name.** Without its escapes it is the name, also behind
a separator in a text that does not end inside an escape. As a segment that is matched with regard to
case it matches the name and no other one, whether or not that is hidden. As a pattern it is a single
part without a wildcard. -/
theorem Scope.nameText_readers (sc : Scope) (he : sc.flags.escapes = true) (name : Text) :
    unescape (sc.nameText name) = name ∧
    (∀ b, endsInsideEscape b = false →
      unescape (b ++ '/' :: sc.nameText name) = unescape b ++ '/' :: name) ∧
    (sc.flags.has .ignoreCase = false →
      ∀ m, nameMatches sc.flags (sc.nameText name) m = true ↔ m = name) ∧
    ∀ allowWildcard, partStop sc.flags.escapes (walkedPattern (sc.nameText name)) 0 allowWildcard =
      ((sc.nameText name).length, false) := by
  have htext : sc.nameText name = escapeName name := if_pos he
  have hplain : ∀ t, sc.flags.plainText t = unescape t := fun t => if_pos he
  rw [htext]
  refine ⟨unescape_escapeName name, ?_, ?_, ?_⟩
  · intro b hb
    have hwhole := (Flags.whole_iff he).2 hb ('/' :: escapeName name)
    rwa [hplain, hplain, hplain, unescape_cons (by decide), unescape_escapeName] at hwhole
  · exact fun hcase m => nameMatches_escapeName he hcase name m
  · have hwild := isWild_escapeName he name
    have hstar : escapeName name ≠ doubleStar := by
      intro h
      rw [h, Flags.isWild_doubleStar] at hwild
      cases hwild
    rw [walkedPattern, if_neg hstar]
    exact partStop_of_not_isWild hwild

/-- The hidden name `.[\` is written `.\[\\`; behind `a\\` and a separator it is read as it is, and no
other name matches it. -/
theorem nameText_readers_hidden :
    escapeName ".[\\".toList = ".\\[\\\\".toList ∧
    unescape "a\\\\/.\\[\\\\".toList = "a\\/.[\\".toList ∧
    nameMatches .empty ".\\[\\\\".toList ".[\\".toList = true ∧
    partStop true ".\\[\\\\".toList 0 true = (5, false) := by
  have hreaders := Scope.nameText_readers ⟨.empty, false, true⟩ rfl ".[\\".toList
  refine ⟨by decide, ?_, ?_, hreaders.2.2.2 true⟩
  · exact hreaders.2.1 "a\\\\".toList (by decide)
  · exact (hreaders.2.2.1 rfl _).2 rfl

end PathGlob
