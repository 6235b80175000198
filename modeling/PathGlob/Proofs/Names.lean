import Mathlib.Data.List.Forall2
import PathGlob.Segment
import PathGlob.Walk

/-! # Names that stars and dots match
Which names the segments with a meaning of their own match, for all flags.

* **`tokensAccept_related`** — tokens take names that differ in characters they do not tell apart.
* **`nameMatches_doubleStar`** — a `**` matches every name that is not hidden.
* **`nameMatches_star`** — as a segment for a single name, `*` matches the same names as `**`.
* **`nameMatches_references`** — the names of dots match themselves. -/

namespace PathGlob

variable {fs : Flags}

/-- Whether a name matches, said by the compiled form of the segment. -/
theorem nameMatches_of_compile? {seg : Text} {g : Segment} (hne : seg.isEmpty = false)
    (h : Segment.compile? fs seg = some g) (name : Text) :
    nameMatches fs seg name =
      if !fs.has .dotMatch && isHidden name && !g.explicitDot then false else g.accepts fs name := by
  unfold nameMatches NameMatcher.ofSegment NameMatcher.accepts
  simp only [hne, Bool.false_eq_true, if_false, h]

/-! ## Names that are not told apart -/

section

variable {gs : Flags} {inRun inRun' : Char → Bool} {rest rest' : Text → Bool} {R : Char → Char → Prop}
  {n n' : Text}

/-- A run goes equally far in names whose characters it does not tell apart. -/
theorem splitsAfterRun_related (hrun : ∀ a b, R a b → inRun a = inRun' b)
    (hrest : ∀ {u u' : Text}, List.Forall₂ R u u' → rest u = rest' u') (h : List.Forall₂ R n n') :
    splitsAfterRun inRun rest n = splitsAfterRun inRun' rest' n' := by
  induction h with
  | nil => exact hrest .nil
  | cons hab hr ih => rw [splitsAfterRun, splitsAfterRun, hrest (.cons hab hr), hrun _ _ hab, ih]

/-- **Tokens do not tell names apart whose characters neither a run nor a single token tells apart**,
even if the names are tried under different flags. -/
theorem tokensAccept_related (hrun : ∀ a b, R a b → fs.inRun a = gs.inRun b)
    (hholds : ∀ t : Token, ∀ a b, R a b →
      t.holds (fs.has .ignoreCase) a = t.holds (gs.has .ignoreCase) b)
    (ts : List Token) (h : List.Forall₂ R n n') : tokensAccept fs ts n = tokensAccept gs ts n' := by
  induction ts generalizing n n' with
  | nil => cases h <;> simp
  | cons t ts ih =>
    cases t with
    | anyRun =>
      rw [tokensAccept, tokensAccept]
      exact splitsAfterRun_related hrun ih h
    | _ =>
      cases h with
      | nil => rfl
      | cons hab hr => simp only [tokensAccept, hholds _ _ _ hab, ih hr]

end

/-! ## Stars -/

/-- A run takes every text that has no separator. -/
theorem tokensAccept_anyRun (fs : Flags) {ts : List Token} {name : Text}
    (hts : tokensAccept fs ts [] = true) (h : '/' ∉ name) :
    tokensAccept fs (.anyRun :: ts) name = true := by
  rw [tokensAccept, splitsAfterRun_iff]
  refine ⟨name, [], by simp, ?_, hts⟩
  intro c hc
  have hne : c ≠ '/' := fun he => h (he ▸ hc)
  simp [Flags.inRun, hne]

/-- A run behind a run takes nothing that the first one could not take. -/
theorem tokensAccept_anyRun_anyRun (fs : Flags) (ts : List Token) (name : Text) :
    tokensAccept fs (.anyRun :: .anyRun :: ts) name = tokensAccept fs (.anyRun :: ts) name := by
  rw [Bool.eq_iff_iff, tokensAccept, tokensAccept, splitsAfterRun_iff, splitsAfterRun_iff]
  constructor
  · rintro ⟨u, v, rfl, hu, hv⟩
    rw [tokensAccept, splitsAfterRun_iff] at hv
    obtain ⟨u', v', rfl, hu', hv'⟩ := hv
    -- one run takes what the two take
    refine ⟨u ++ u', v', by simp, ?_, hv'⟩
    intro c hc
    rcases List.mem_append.1 hc with hc | hc
    · exact hu c hc
    · exact hu' c hc
  · rintro ⟨u, v, rfl, hu, hv⟩
    -- the first run takes nothing
    refine ⟨[], u ++ v, rfl, by simp, ?_⟩
    rw [tokensAccept, splitsAfterRun_iff]
    exact ⟨u, v, rfl, hu, hv⟩

/-- The compiled form of a `**`. -/
theorem compile?_doubleStar (fs : Flags) :
    Segment.compile? fs doubleStar = some ⟨[.anyRun, .anyRun]⟩ := by
  simp [Segment.compile?, readTokens?, readRest?, doubleStar, Token.ofChar, Token.wellFormed]

/-- **A `**` accepts every name that is not hidden.** -/
theorem nameMatches_doubleStar (hdot : fs.has .dotMatch = false) {name : Text} (h : '/' ∉ name) :
    nameMatches fs doubleStar name = true ↔ isHidden name = false := by
  have haccepts : (⟨[.anyRun, .anyRun]⟩ : Segment).accepts fs name = true :=
    tokensAccept_anyRun fs (tokensAccept_anyRun fs (tokensAccept_nil fs []) (by simp)) h
  have hexplicit : (⟨[.anyRun, .anyRun]⟩ : Segment).explicitDot = false := rfl
  rw [nameMatches_of_compile? rfl (compile?_doubleStar fs)]
  cases hh : isHidden name <;> simp [hdot, hexplicit, haccepts]

/-- **A star matches the same names as a `**`.** -/
theorem nameMatches_star (fs : Flags) (name : Text) :
    nameMatches fs ['*'] name = nameMatches fs doubleStar name := by
  have hcompile : Segment.compile? fs ['*'] = some ⟨[.anyRun]⟩ := by
    simp [Segment.compile?, readTokens?, readRest?, Token.ofChar, Token.wellFormed]
  have hexplicit : (⟨[.anyRun]⟩ : Segment).explicitDot =
      (⟨[.anyRun, .anyRun]⟩ : Segment).explicitDot := rfl
  rw [nameMatches_of_compile? rfl hcompile, nameMatches_of_compile? rfl (compile?_doubleStar fs),
    hexplicit, Segment.accepts, Segment.accepts, tokensAccept_anyRun_anyRun]

/-! ## Dots -/

/-- A segment that spells out its dot matches the names of dots alone. -/
theorem nameMatches_references (fs : Flags) :
    nameMatches fs currentDirectory currentDirectory = true ∧
      nameMatches fs parentDirectory parentDirectory = true := by
  have hholds : (Token.literal '.').holds (fs.has .ignoreCase) '.' = true := by
    cases fs.has .ignoreCase <;> decide
  have hcurrent : Segment.compile? fs currentDirectory = some ⟨[.literal '.']⟩ := by
    simp [Segment.compile?, readTokens?, readRest?, currentDirectory, Token.ofChar, Token.wellFormed]
  have hparent : Segment.compile? fs parentDirectory = some ⟨[.literal '.', .literal '.']⟩ := by
    simp [Segment.compile?, readTokens?, readRest?, parentDirectory, Token.ofChar, Token.wellFormed]
  have hexplicit : ∀ ts, (⟨.literal '.' :: ts⟩ : Segment).explicitDot = true := fun _ => rfl
  rw [nameMatches_of_compile? rfl hcurrent, nameMatches_of_compile? rfl hparent, hexplicit, hexplicit]
  simp [Segment.accepts, currentDirectory, parentDirectory, tokensAccept, hholds]

end PathGlob
