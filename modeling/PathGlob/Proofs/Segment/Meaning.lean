import Mathlib.Data.List.Forall2
import PathGlob.Proofs.Names
import PathGlob.Proofs.Segment.Spelling

/-! # The meaning of segments
Which names a segment matches, said without a reader and without a search.

* **`SetItem.Contains`**, **`CharSet.Contains`** — the characters of a class.
* **`Token.Takes`** — the texts that a token takes; **`Token.IsOrdered`** — no range of a class runs
  backwards; **`Token.SpellsDot`** — the token spells out a dot.
* **`tokensAccept_iff`** — a name is used up by tokens if it is cut into texts that they take.
* **`nameMatches_iff`** — which names a segment matches. -/

namespace PathGlob

/-! ## Characters -/

/-- Whether two characters count as equal: without regard to case they need only be the same
letter. -/
def IsSameChar (ignoreCase : Bool) (c d : Char) : Prop :=
  if ignoreCase then sameLetter c d = true else c = d

/-- The characters of an item; `alone` says whether its set has nothing else. -/
def SetItem.Contains (ignoreCase alone : Bool) (i : SetItem) (d : Char) : Prop :=
  if ignoreCase then i.holdsAnyCase alone d = true
  else
    match i with
    | .single c => c = d
    | .range first last => first ≤ d ∧ d ≤ last

/-- **The characters of a set**: those of an item, or if the set is negated, those of no item. -/
def CharSet.Contains (ignoreCase : Bool) (s : CharSet) (d : Char) : Prop :=
  if s.negated then ∀ i ∈ s.items, ¬ i.Contains ignoreCase s.isAlone d
  else ∃ i ∈ s.items, i.Contains ignoreCase s.isAlone d

section

variable {ignoreCase : Bool}

/-- Membership in an item. -/
theorem SetItem.contains_iff {alone : Bool} {i : SetItem} {d : Char} :
    i.Contains ignoreCase alone d ↔
      (if ignoreCase then i.holdsAnyCase alone d else i.holds d) = true := by
  cases ignoreCase with
  | true => rfl
  | false =>
    cases i with
    | single c => simp [SetItem.Contains, SetItem.holds]
    | range first last => simp [SetItem.Contains, SetItem.holds]

/-- Membership in a set. -/
theorem CharSet.holds_iff {s : CharSet} {d : Char} :
    s.holds ignoreCase d = true ↔ s.Contains ignoreCase d := by
  have hitems : (if ignoreCase then s.items.any (·.holdsAnyCase s.isAlone d)
      else s.items.any (·.holds d)) = true ↔ ∃ i ∈ s.items, i.Contains ignoreCase s.isAlone d := by
    simp only [SetItem.contains_iff]
    cases ignoreCase <;> simp
  rw [CharSet.holds, CharSet.Contains, bne_iff_ne]
  cases s.negated with
  | true =>
    rw [ne_eq, hitems]
    simp
  | false =>
    rw [ne_eq, Bool.not_eq_false, hitems]
    simp

end

/-! ## Tokens -/

/-- **The texts that a token takes.** -/
inductive Token.Takes (fs : Flags) : Token → Text → Prop
  /-- A literal takes one equal character. -/
  | literal {c d : Char} (h : IsSameChar (fs.has .ignoreCase) c d) : Token.Takes fs (.literal c) [d]
  /-- Any one character. -/
  | anyChar (d : Char) : Token.Takes fs .anyChar [d]
  /-- Any run of characters; under path names a separator is not among them. -/
  | anyRun {u : Text} (h : fs.has .pathName = true → '/' ∉ u) : Token.Takes fs .anyRun u
  /-- A class takes one character of its set. -/
  | bracket {b : Bracket} {s : CharSet} {d : Char} (hs : ReadsSet b.members s)
      (h : s.Contains (fs.has .ignoreCase) d) : Token.Takes fs (.bracket b) [d]

/-- No range of a class runs backwards. -/
def Token.IsOrdered : Token → Prop
  | .bracket b => ∀ s, ReadsSet b.members s → ∀ first last, .range first last ∈ s.items → first ≤ last
  | _ => True

/-- A token spells out a dot: it is a literal dot or a class whose first member is a dot. -/
def Token.SpellsDot (t : Token) : Prop :=
  t = .literal '.' ∨ ∃ escaped ms, t = .bracket ⟨⟨'.', escaped⟩ :: ms⟩

section

variable {fs : Flags} {t : Token}

theorem Token.wellFormed_iff : t.wellFormed = true ↔ t.IsOrdered := by
  cases t with
  | bracket b =>
    simp only [Token.wellFormed, CharSet.wellFormed, List.all_eq_true, Token.IsOrdered,
      readsSet_iff, forall_eq']
    constructor
    · intro h first last hmem
      simpa [SetItem.wellFormed] using h _ hmem
    · intro h i hi
      cases i with
      | single c => rfl
      | range first last => simpa [SetItem.wellFormed] using h first last hi
  | _ => simp [Token.wellFormed, Token.IsOrdered]

theorem Token.isDot_iff : t.isDot = true ↔ t.SpellsDot := by
  cases t with
  | bracket b =>
    rcases b with ⟨_ | ⟨⟨c, escaped⟩, ms⟩⟩ <;>
      simp [Token.isDot, Token.SpellsDot, Bracket.beginsWith]
  | _ => simp [Token.isDot, Token.SpellsDot]

/-- A token other than a run takes the texts of the one character that it matches. -/
theorem Token.takes_iff (hrun : t ≠ .anyRun) {u : Text} :
    t.Takes fs u ↔ ∃ d, u = [d] ∧ t.holds (fs.has .ignoreCase) d = true := by
  constructor
  · intro h
    cases h with
    | @literal c d h =>
      refine ⟨d, rfl, ?_⟩
      simpa [Token.holds, IsSameChar] using h
    | anyChar d => exact ⟨d, rfl, rfl⟩
    | anyRun _ => exact absurd rfl hrun
    | @bracket b s d hs h =>
      refine ⟨d, rfl, ?_⟩
      rw [Token.holds, readsSet_iff.1 hs]
      exact CharSet.holds_iff.2 h
  · rintro ⟨d, rfl, h⟩
    cases t with
    | literal c => exact .literal (by simpa [Token.holds, IsSameChar] using h)
    | anyChar => exact .anyChar d
    | anyRun => exact absurd rfl hrun
    | bracket b => exact .bracket (readsSet_iff.2 rfl) (CharSet.holds_iff.1 h)

/-- A run takes texts whose characters may belong to a run. -/
theorem takes_anyRun_iff {u : Text} :
    Token.Takes fs .anyRun u ↔ ∀ c ∈ u, fs.inRun c = true := by
  have hrun : (fs.has .pathName = true → '/' ∉ u) ↔ ∀ c ∈ u, fs.inRun c = true := by
    cases hpath : fs.has .pathName with
    | false => simp [Flags.inRun, hpath]
    | true => simpa [Flags.inRun, hpath] using List.forall_mem_ne'.symm
  rw [← hrun]
  constructor
  · intro h
    cases h with
    | anyRun h => exact h
  · exact .anyRun

/-- A token other than a run uses up one character. -/
theorem tokensAccept_cons_iff (hrun : t ≠ .anyRun) {ts : List Token} {name : Text} :
    tokensAccept fs (t :: ts) name = true ↔
      ∃ c r, name = c :: r ∧ t.holds (fs.has .ignoreCase) c = true ∧ tokensAccept fs ts r = true := by
  cases t with
  | anyRun => exact absurd rfl hrun
  | _ => cases name <;> simp [tokensAccept]

/-- **A name is used up by tokens** exactly if it can be cut into texts that they take in order. -/
theorem tokensAccept_iff {ts : List Token} {name : Text} :
    tokensAccept fs ts name = true ↔
      ∃ us, name = us.flatten ∧ List.Forall₂ (Token.Takes fs) ts us := by
  induction ts generalizing name with
  | nil => simp
  | cons t ts ih =>
    -- the first text is taken by the first token, the others by the others
    have hcut : (∃ us, name = us.flatten ∧ List.Forall₂ (Token.Takes fs) (t :: ts) us) ↔
        ∃ u v, name = u ++ v ∧ t.Takes fs u ∧ tokensAccept fs ts v = true := by
      simp only [ih, List.forall₂_cons_left_iff]
      constructor
      · rintro ⟨_, rfl, u, us, hu, hus, rfl⟩
        exact ⟨u, us.flatten, rfl, hu, us, rfl, hus⟩
      · rintro ⟨u, _, rfl, hu, us, rfl, hus⟩
        exact ⟨u :: us, rfl, u, us, hu, hus, rfl⟩
    rw [hcut]
    by_cases hrun : t = .anyRun
    · subst hrun
      rw [tokensAccept, splitsAfterRun_iff]
      simp only [takes_anyRun_iff]
    · rw [tokensAccept_cons_iff hrun]
      simp only [Token.takes_iff hrun]
      constructor
      · rintro ⟨c, r, rfl, hc, hr⟩
        exact ⟨[c], r, rfl, ⟨c, rfl, hc⟩, hr⟩
      · rintro ⟨_, v, rfl, ⟨d, rfl, hd⟩, hv⟩
        exact ⟨d, v, rfl, hd, hv⟩

/-- A segment can be compiled exactly if it spells tokens whose ranges all run forwards. -/
theorem Segment.compile?_eq_some_iff {pattern : Text} {s : Segment} :
    Segment.compile? fs pattern = some s ↔
      Spells fs.escapes s.tokens pattern ∧ ∀ t ∈ s.tokens, t.IsOrdered := by
  rw [← readTokens?_eq_some_iff, Segment.compile?]
  simp only [← Token.wellFormed_iff]
  cases readTokens? fs.escapes pattern with
  | none => simp
  | some ts =>
    rcases s with ⟨us⟩
    simp only [List.all_eq_true, Option.some.injEq]
    constructor
    · intro h
      split at h
      · rename_i hall
        cases h
        exact ⟨rfl, hall⟩
      · cases h
    · rintro ⟨rfl, hall⟩
      rw [if_pos hall]

/-- The first token spells out a dot. -/
theorem Segment.explicitDot_iff {s : Segment} :
    s.explicitDot = true ↔ ∃ t ts, s.tokens = t :: ts ∧ t.SpellsDot := by
  rcases s with ⟨_ | ⟨t, ts⟩⟩
  · simp [Segment.explicitDot]
  · simp [Segment.explicitDot, Token.isDot_iff]

end

/-! ## Names -/

/-- **Which names a segment matches.** The empty segment matches the empty name alone. Any other one
has to spell tokens whose classes are well-formed, and the whole name is cut into texts that these
take in order; and unless a flag asks for them, a name that starts with a dot is matched only if the
first token spells the dot out. -/
theorem nameMatches_iff (fs : Flags) (pattern name : Text) :
    nameMatches fs pattern name = true ↔
      (pattern = [] ∧ name = []) ∨
        (pattern ≠ [] ∧ ∃ ts, Spells fs.escapes ts pattern ∧ (∀ t ∈ ts, t.IsOrdered) ∧
          (∃ us, name = us.flatten ∧ List.Forall₂ (Token.Takes fs) ts us) ∧
          (fs.has .dotMatch = false → name.head? = some '.' →
            ∃ t ts', ts = t :: ts' ∧ t.SpellsDot)) := by
  rcases pattern with _ | ⟨c, r⟩
  · simp [nameMatches, NameMatcher.ofSegment, NameMatcher.accepts]
  · have hcompile := @Segment.compile?_eq_some_iff fs (c :: r)
    have hempty : (c :: r).isEmpty = false := rfl
    simp only [List.cons_ne_nil, false_and, false_or, ne_eq, not_false_eq_true, true_and]
    constructor
    · intro h
      cases hg : Segment.compile? fs (c :: r) with
      | none => simp [nameMatches, NameMatcher.ofSegment, NameMatcher.accepts, hg] at h
      | some g =>
        rw [nameMatches_of_compile? hempty hg] at h
        split at h
        · cases h
        · rename_i hdot
          obtain ⟨hts, hordered⟩ := hcompile.1 hg
          refine ⟨g.tokens, hts, hordered, tokensAccept_iff.1 h, fun hflag hhead => ?_⟩
          rw [← Segment.explicitDot_iff]
          simpa [hflag, isHidden, hhead] using hdot
    · rintro ⟨ts, hts, hordered, hus, hdot⟩
      have hg : Segment.compile? fs (c :: r) = some ⟨ts⟩ := hcompile.2 ⟨hts, hordered⟩
      have hexplicit := @Segment.explicitDot_iff ⟨ts⟩
      rw [nameMatches_of_compile? hempty hg, if_neg]
      · exact tokensAccept_iff.2 hus
      · simp only [Bool.and_eq_true, Bool.not_eq_true', isHidden, beq_iff_eq]
        rintro ⟨⟨hflag, hhead⟩, hno⟩
        rw [hexplicit.2 (hdot hflag hhead)] at hno
        cases hno

end PathGlob
