import PathGlob.Proofs.Escapes
import PathGlob.Proofs.Segment.Expressions

/-! # Malformed classes
A segment that cannot be compiled matches no name, and nothing is said about it. It is so exactly for
classes that have no end, no member, or a range that runs backwards. The first two are noticed while
the segment is read; a range is noticed only by the engine, which refuses the expression.

* **`Outside`** — a text behind which no class is open and no escape; **`MalformedClass`** — what is
  wrong with a class, said of the text behind its opening bracket.
* **`hasNoEnd_iff`** — a class has no end, or members can be read up to it.
* **`exists_spells_iff`** — the segments that spell tokens whose ranges run forwards.
* **`RefusesExpression`** — an engine finds a range that runs backwards;
  **`refusesExpression_flatMap`** — it does so for the tokens of a segment unless they are ordered.
* **`Segment.compile?_eq_none_iff_malformed`** — the main statement. -/

namespace PathGlob

/-! ## Where a class is opened -/

/-- **A text ends outside of classes and escapes** if it is read from the left: characters and escapes
stand one behind the other, and each class that is opened has its end. -/
inductive Outside (escapes : Bool) : Text → Prop
  /-- The empty text. -/
  | nil : Outside escapes []
  /-- A character that opens no class and begins no escape. -/
  | char {c : Char} {r : Text} (hopen : c ≠ '[') (hescape : escapes = true → c ≠ '\\')
      (h : Outside escapes r) : Outside escapes (c :: r)
  /-- A character behind a backslash. -/
  | escaped {r : Text} (hescapes : escapes = true) (c : Char) (h : Outside escapes r) :
      Outside escapes ('\\' :: c :: r)
  /-- A class, which may be malformed. -/
  | bracket {ms : List Member} {u r : Text} (hmembers : SpellsMembers escapes ms u)
      (h : Outside escapes r) : Outside escapes ('[' :: (u ++ ']' :: r))

/-- A class has no end: each closing bracket behind its opening one is escaped. -/
def HasNoEnd (escapes : Bool) (t : Text) : Prop :=
  ∀ u r, t = u ++ ']' :: r → escapes = true ∧ endsInsideEscape u = true

/-- **What is wrong with a class**, said of the text behind its opening bracket. -/
inductive MalformedClass (escapes : Bool) : Text → Prop
  /-- The class has no end. -/
  | noEnd {t : Text} (h : HasNoEnd escapes t) : MalformedClass escapes t
  /-- It has no member. -/
  | empty (r : Text) : MalformedClass escapes (']' :: r)
  /-- It has a range that runs backwards. -/
  | backwards {ms : List Member} {u : Text} {s : CharSet} {first last : Char}
      (hmembers : SpellsMembers escapes ms u) (hs : ReadsSet ms s)
      (hrange : .range first last ∈ s.items) (hback : last < first) (r : Text) :
      MalformedClass escapes (u ++ ']' :: r)

section

variable {escapes : Bool} {c d : Char} {r t u : Text} {ms : List Member} {ts : List Token}

/-! ## The end of a class -/

/-- Members end no escape too early: the text behind them is read anew. -/
theorem SpellsMembers.endsInsideEscape (h : SpellsMembers true ms u) :
    endsInsideEscape u = false := by
  induction h with
  | nil => rfl
  | plain _ hescape _ ih => rwa [endsInsideEscape_cons (hescape rfl)]
  | escaped _ c _ ih => rwa [endsInsideEscape_escape]

/-- An escape in front of a text brings no end. -/
theorem HasNoEnd.escape (hescapes : escapes = true) (c : Char) (h : HasNoEnd escapes r) :
    HasNoEnd escapes ('\\' :: c :: r) := by
  rintro (_ | ⟨b, _ | ⟨d, u⟩⟩) v hcut
  · exact absurd (List.cons.inj hcut).1 (by decide)
  · -- an end right behind the backslash is escaped
    obtain ⟨rfl, -⟩ := List.cons.inj hcut
    exact ⟨hescapes, rfl⟩
  · simp only [List.cons_append, List.cons.injEq] at hcut
    obtain ⟨rfl, rfl, hcut⟩ := hcut
    exact h u v hcut

/-- Nor does a character that is not the end. -/
theorem HasNoEnd.cons (hend : c ≠ ']') (hescape : escapes = true → c ≠ '\\')
    (h : HasNoEnd escapes r) : HasNoEnd escapes (c :: r) := by
  rintro (_ | ⟨d, u⟩) v hcut
  · exact absurd (List.cons.inj hcut).1 hend
  · obtain ⟨rfl, hrest⟩ : c = d ∧ r = u ++ ']' :: v := by simpa using hcut
    obtain ⟨hescapes, hinside⟩ := h u v hrest
    exact ⟨hescapes, by rwa [endsInsideEscape_cons (hescape hescapes)]⟩

/-- Members can be read up to the end of a class, unless there is none. -/
theorem exists_members_or_hasNoEnd (escapes : Bool) :
    ∀ t, (∃ ms u r, t = u ++ ']' :: r ∧ SpellsMembers escapes ms u) ∨ HasNoEnd escapes t
  | [] => .inr fun u r h => by simp at h
  | [c] => by
    by_cases hend : c = ']'
    · exact .inl ⟨[], [], [], by rw [hend, List.nil_append], .nil⟩
    · right
      rintro (_ | ⟨d, u⟩) r hcut
      · exact absurd (List.cons.inj hcut).1 hend
      · simp at hcut
  | c :: d :: r => by
    by_cases hend : c = ']'
    · exact .inl ⟨[], [], d :: r, by rw [hend, List.nil_append], .nil⟩
    by_cases hescape : escapes = true ∧ c = '\\'
    · obtain ⟨hescapes, rfl⟩ := hescape
      rcases exists_members_or_hasNoEnd escapes r with ⟨ms, u, v, rfl, hmembers⟩ | h
      · exact .inl ⟨_, _, v, rfl, .escaped hescapes d hmembers⟩
      · exact .inr (h.escape hescapes d)
    · rw [not_and] at hescape
      rcases exists_members_or_hasNoEnd escapes (d :: r) with ⟨ms, u, v, hcut, hmembers⟩ | h
      · exact .inl ⟨_, c :: u, v, by rw [hcut, List.cons_append], .plain hend hescape hmembers⟩
      · exact .inr (h.cons hend hescape)

/-- **A class has no end** exactly if no members can be read up to one. -/
theorem hasNoEnd_iff :
    HasNoEnd escapes t ↔ ¬ ∃ ms u r, t = u ++ ']' :: r ∧ SpellsMembers escapes ms u := by
  constructor
  · rintro h ⟨ms, u, r, hcut, hmembers⟩
    obtain ⟨rfl, hinside⟩ := h u r hcut
    rw [hmembers.endsInsideEscape] at hinside
    cases hinside
  · exact (exists_members_or_hasNoEnd escapes t).resolve_left

/-! ## What is spelled -/

/-- Members of a class are read one by one. -/
theorem spellsClass_append_iff (hmembers : SpellsMembers escapes ms u) {before : List Member} :
    SpellsClass escapes before ts (u ++ r) ↔ SpellsClass escapes (before ++ ms) ts r := by
  induction hmembers generalizing before with
  | nil => simp
  | plain hend hescape _ ih => simp [spellsClass_cons_iff hescape hend, ih]
  | escaped hescapes c _ ih => simp [spellsClass_escaped_iff hescapes, ih]

/-- A class in front of a text. -/
theorem spells_bracket_iff (hmembers : SpellsMembers escapes ms u) :
    Spells escapes ts ('[' :: (u ++ ']' :: r)) ↔
      ms ≠ [] ∧ ∃ ts', Spells escapes ts' r ∧ .bracket ⟨ms⟩ :: ts' = ts := by
  rw [spells_opening_iff, spellsClass_append_iff hmembers, List.nil_append, spellsClass_closing_iff]

/-- What is spelled behind a text that ends outside of classes is spelled by the last tokens. -/
theorem Outside.exists_spells (hu : Outside escapes u) (h : Spells escapes ts (u ++ t)) :
    ∃ us, Spells escapes us t ∧ us ⊆ ts := by
  induction hu generalizing ts with
  | nil => exact ⟨ts, h, List.Subset.refl ts⟩
  | char hopen hescape _ ih =>
    obtain ⟨ts', h', rfl⟩ := (spells_cons_iff hescape hopen).1 h
    obtain ⟨us, hus, hsub⟩ := ih h'
    exact ⟨us, hus, List.subset_cons_of_subset _ hsub⟩
  | escaped hescapes c _ ih =>
    obtain ⟨ts', h', rfl⟩ := (spells_escaped_iff hescapes).1 h
    obtain ⟨us, hus, hsub⟩ := ih h'
    exact ⟨us, hus, List.subset_cons_of_subset _ hsub⟩
  | bracket hmembers _ ih =>
    rw [List.cons_append, List.append_assoc, List.cons_append] at h
    obtain ⟨-, ts', h', rfl⟩ := (spells_bracket_iff hmembers).1 h
    obtain ⟨us, hus, hsub⟩ := ih h'
    exact ⟨us, hus, List.subset_cons_of_subset _ hsub⟩

/-- No ordered tokens are spelled from a malformed class on. -/
theorem MalformedClass.not_spells (h : MalformedClass escapes t)
    (hspells : Spells escapes ts ('[' :: t)) (hordered : ∀ t ∈ ts, t.IsOrdered) : False := by
  cases h with
  | noEnd hno =>
    obtain ⟨ms, u, -, r, rfl, hmembers, -⟩ := spells_opening_iff.1 hspells
    exact hasNoEnd_iff.1 hno ⟨ms, u, r, rfl, hmembers⟩
  | empty r => exact ((spells_bracket_iff .nil).1 hspells).1 rfl
  | backwards hmembers hs hrange hback r =>
    obtain ⟨-, ts', -, rfl⟩ := (spells_bracket_iff hmembers).1 hspells
    exact Char.not_lt.2 (hordered _ List.mem_cons_self _ hs _ _ hrange) hback

/-- A class is ordered unless a range of it runs backwards. -/
theorem Token.isOrdered_bracket_iff :
    (Token.bracket ⟨ms⟩).IsOrdered ↔
      ¬ ∃ s first last, ReadsSet ms s ∧ .range first last ∈ s.items ∧ last < first := by
  simp only [Token.IsOrdered, not_exists, not_and, Char.not_lt]
  exact ⟨fun h s first last hs => h s hs first last, fun h s hs first last => h s first last hs⟩

/-- Texts that end outside of classes can stand one behind the other. -/
theorem Outside.append (hu : Outside escapes u) (ht : Outside escapes t) :
    Outside escapes (u ++ t) := by
  induction hu with
  | nil => exact ht
  | char hopen hescape _ ih => exact .char hopen hescape ih
  | escaped hescapes c _ ih => exact .escaped hescapes c ih
  | bracket hmembers _ ih =>
    rw [List.cons_append, List.append_assoc, List.cons_append]
    exact .bracket hmembers ih

/-- **A text has a malformed class** that is opened outside of other classes. -/
def HasMalformedClass (escapes : Bool) (p : Text) : Prop :=
  ∃ u t, p = u ++ '[' :: t ∧ Outside escapes u ∧ MalformedClass escapes t

/-- It has one if the text behind a front of it has one. -/
theorem HasMalformedClass.behind (hu : Outside escapes u) (h : HasMalformedClass escapes r) :
    HasMalformedClass escapes (u ++ r) := by
  obtain ⟨v, t, rfl, hv, ht⟩ := h
  exact ⟨u ++ v, t, (List.append_assoc _ _ _).symm, hu.append hv, ht⟩

/-- A class that is not malformed is spelled up to its end. -/
theorem exists_members_of_not_malformed (h : ¬ MalformedClass escapes t) :
    ∃ ms u r, t = u ++ ']' :: r ∧ SpellsMembers escapes ms u ∧ ms ≠ [] ∧
      (Token.bracket ⟨ms⟩).IsOrdered := by
  obtain ⟨ms, u, r, rfl, hmembers⟩ :=
    (exists_members_or_hasNoEnd escapes t).resolve_right fun hno => h (.noEnd hno)
  refine ⟨ms, u, r, rfl, hmembers, ?_, Token.isOrdered_bracket_iff.2 ?_⟩
  · rintro rfl
    cases hmembers
    exact h (.empty r)
  · rintro ⟨s, first, last, hs, hrange, hback⟩
    exact h (.backwards hmembers hs hrange hback r)

/-- A character makes no class. -/
theorem Token.isOrdered_ofChar (c : Char) : (Token.ofChar c).IsOrdered := by
  unfold Token.ofChar
  split_ifs <;> trivial

/-- Where no class is malformed, ordered tokens are spelled. -/
theorem exists_spells_of_not_malformed (escapes : Bool) (p : Text)
    (h : ¬ HasMalformedClass escapes p) :
    ∃ ts, Spells escapes ts p ∧ ∀ t ∈ ts, t.IsOrdered := by
  -- on the length, as a class is read as a whole
  induction hn : p.length using Nat.strongRecOn generalizing p with
  | _ n shorter =>
    subst hn
    have hrest {u r : Text} (hu : Outside escapes u) (hp : p = u ++ r) (hne : u ≠ []) :
        ∃ ts, Spells escapes ts r ∧ ∀ t ∈ ts, t.IsOrdered := by
      refine shorter r.length ?_ r (fun hr => h (hp ▸ hr.behind hu)) rfl
      rw [hp, List.length_append]
      have := List.length_pos_iff.2 hne
      omega
    cases p with
    | nil => exact ⟨[], .nil, by simp⟩
    | cons c r =>
      by_cases hescape : escapes = true ∧ c = '\\'
      · obtain ⟨hescapes, rfl⟩ := hescape
        cases r with
        | nil => exact ⟨_, .backslash hescapes, by simp [Token.IsOrdered]⟩
        | cons d r =>
          obtain ⟨ts, hts, hordered⟩ := hrest (r := r) (.escaped hescapes d .nil) rfl (by simp)
          exact ⟨_, .escaped hescapes d hts, by simpa [Token.IsOrdered] using hordered⟩
      rw [not_and] at hescape
      by_cases hopen : c = '['
      · subst hopen
        obtain ⟨ms, u, v, rfl, hmembers, hne, hclass⟩ :=
          exists_members_of_not_malformed fun hr => h ⟨[], r, rfl, .nil, hr⟩
        obtain ⟨ts, hts, hordered⟩ := hrest (r := v) (.bracket hmembers .nil) (by simp) (by simp)
        exact ⟨_, .bracket hne hmembers hts, List.forall_mem_cons.2 ⟨hclass, hordered⟩⟩
      · obtain ⟨ts, hts, hordered⟩ := hrest (.char hopen hescape .nil) rfl (by simp)
        exact ⟨_, (spells_cons_iff hescape hopen).2 ⟨ts, hts, rfl⟩,
          List.forall_mem_cons.2 ⟨Token.isOrdered_ofChar c, hordered⟩⟩

/-- **Ordered tokens are spelled** exactly where no class is malformed. -/
theorem exists_spells_iff {p : Text} :
    (∃ ts, Spells escapes ts p ∧ ∀ t ∈ ts, t.IsOrdered) ↔ ¬ HasMalformedClass escapes p := by
  constructor
  · rintro ⟨ts, hts, hordered⟩ ⟨u, t, rfl, hu, ht⟩
    obtain ⟨us, hus, hsub⟩ := hu.exists_spells hts
    exact ht.not_spells hus fun t ht => hordered t (hsub ht)
  · exact exists_spells_of_not_malformed escapes p

end

/-! ## What an engine refuses -/

/-- **An engine refuses an expression** at a set with a range that runs backwards. What stands in
front of the set is read. -/
inductive RefusesExpression : Text → Prop
  /-- The set stands at the front. -/
  | set {t r : Text} {s : CharSet} {first last : Char} (h : readRawSet? t = some (s, r))
      (hrange : .range first last ∈ s.items) (hback : last < first) : RefusesExpression ('[' :: t)
  /-- It stands behind a part. -/
  | behind {t r : Text} {p : ExpressionPart} (h : readPart? t = some (p, r))
      (hrest : RefusesExpression r) : RefusesExpression t

/-- A set is not well-formed if a range of it runs backwards. -/
theorem CharSet.not_wellFormed_iff {s : CharSet} :
    ¬ s.wellFormed = true ↔ ∃ first last, .range first last ∈ s.items ∧ last < first := by
  simp only [CharSet.wellFormed, List.all_eq_true, not_forall]
  constructor
  · rintro ⟨i, hi, hback⟩
    cases i with
    | single c => exact absurd rfl hback
    | range first last =>
      exact ⟨first, last, hi, Char.not_le.1 (by simpa [SetItem.wellFormed] using hback)⟩
  · rintro ⟨first, last, hrange, hback⟩
    exact ⟨_, hrange, by simpa [SetItem.wellFormed] using Char.not_le.2 hback⟩

/-- What is refused is not read. -/
theorem RefusesExpression.not_reads {t : Text} (h : RefusesExpression t) (ps : List ExpressionPart) :
    ¬ ReadsExpression ps t := by
  induction h generalizing ps with
  | set h hrange hback =>
    rintro (_ | ⟨hpart, -⟩)
    have hatom := readAtom?_of_not_wellFormed h (CharSet.not_wellFormed_iff.2 ⟨_, _, hrange, hback⟩)
    rw [readPart?, hatom] at hpart
    cases hpart
  | behind h _ ih =>
    rintro (_ | ⟨hpart, hrest⟩)
    · cases h
    · rw [h] at hpart
      cases hpart
      exact ih _ hrest

/-- **The expression of tokens is refused** if one of them is not well-formed. -/
theorem refusesExpression_flatMap {pathName : Bool} {ts : List Token}
    (hne : ∀ b, .bracket b ∈ ts → b.members ≠ []) (hback : ∃ t ∈ ts, ¬ t.wellFormed = true) :
    RefusesExpression (ts.flatMap (Token.expression pathName)) := by
  induction ts with
  | nil => simp at hback
  | cons t ts ih =>
    rw [List.flatMap_cons]
    have hne' : ∀ b, t = .bracket b → b.members ≠ [] := by
      rintro b rfl
      exact hne b List.mem_cons_self
    by_cases ht : t.wellFormed = true
    · have hrest := ih (fun b hb => hne b (List.mem_cons_of_mem t hb)) (by simpa [ht] using hback)
      exact .behind (Token.readPart?_expression ht hne' (noOperator_flatMap pathName ts)) hrest
    · cases t with
      | bracket b =>
        obtain ⟨u, hu, hread⟩ := exists_expression?_readRawSet? (hne' b rfl)
        obtain ⟨first, last, hrange, hlast⟩ := CharSet.not_wellFormed_iff.1 ht
        rw [Token.expression, hu]
        exact .set (hread _) hrange hlast
      | _ => exact absurd rfl ht

/-! ## Compiling -/

/-- **A segment cannot be compiled exactly if it has a malformed class**: one without an end, without
a member, or with a range that runs backwards. The regular expression of any other segment is read by
an engine; and if tokens were read, but the segment cannot be compiled, then it is because an engine
refuses their expression. -/
theorem Segment.compile?_eq_none_iff_malformed (fs : Flags) (pattern : Text) :
    (Segment.compile? fs pattern = none ↔ HasMalformedClass fs.escapes pattern) ∧
    (∀ s, Segment.compile? fs pattern = some s → ∃ ps, ReadsExpression ps (s.expression fs)) ∧
    ∀ ts, readTokens? fs.escapes pattern = some ts →
      (Segment.compile? fs pattern = none ↔ RefusesExpression (Segment.expression fs ⟨ts⟩)) := by
  have hread : ∀ s, Segment.compile? fs pattern = some s →
      ∃ ps, ReadsExpression ps (s.expression fs) := by
    intro s hs
    obtain ⟨hspells, hordered⟩ := Segment.compile?_eq_some_iff.1 hs
    exact ⟨_, readsExpression_flatMap (fun t ht => Token.wellFormed_iff.2 (hordered t ht))
      fun _ => hspells.members_ne_nil⟩
  refine ⟨?_, hread, fun ts hts => ?_⟩
  · rw [← not_iff_not, ← exists_spells_iff, ← ne_eq, Option.ne_none_iff_exists']
    simp only [Segment.compile?_eq_some_iff]
    exact ⟨fun ⟨s, hs⟩ => ⟨s.tokens, hs⟩, fun ⟨ts, hts⟩ => ⟨⟨ts⟩, hts⟩⟩
  · have hcompile : Segment.compile? fs pattern =
        if ts.all Token.wellFormed then some ⟨ts⟩ else none := by
      rw [Segment.compile?, hts]
    by_cases hall : ts.all Token.wellFormed = true
    · rw [if_pos hall] at hcompile
      obtain ⟨ps, hps⟩ := hread _ hcompile
      exact iff_of_false (by simp [hcompile]) fun h => h.not_reads ps hps
    · rw [if_neg hall] at hcompile
      have hspells := readTokens?_eq_some_iff.1 hts
      exact iff_of_true hcompile
        (refusesExpression_flatMap (fun _ => hspells.members_ne_nil) (by simpa using hall))

/-- The range of `a[z-a]` runs backwards, and an engine refuses it; behind an escape, the first member
of `[\^-a]` begins a range that runs forwards. -/
theorem compile?_backwards_range :
    Segment.compile? .empty "a[z-a]".toList = none ∧
    RefusesExpression "a[z-a]".toList ∧
    ∃ ps, ReadsExpression ps "[\\^-a]".toList := by
  have hback := Segment.compile?_eq_none_iff_malformed .empty "a[z-a]".toList
  have hforth := Segment.compile?_eq_none_iff_malformed .empty "[\\^-a]".toList
  have hmembers : SpellsMembers true ("z-a".toList.map .plain) "z-a".toList :=
    .plain (by decide) (by decide) (.plain (by decide) (by decide)
      (.plain (by decide) (by decide) .nil))
  have hset : ReadsSet ("z-a".toList.map .plain) ⟨false, [.range 'z' 'a']⟩ :=
    readsSet_iff.2 (by decide)
  have hclass : MalformedClass true "z-a]".toList :=
    .backwards hmembers hset List.mem_cons_self (by decide) []
  have hnone := hback.1.2 ⟨"a".toList, _, rfl, .char (by decide) (by decide) .nil, hclass⟩
  have hrefused := (hback.2.2 [.literal 'a', .bracket ⟨"z-a".toList.map .plain⟩] (by decide +kernel)).1
    hnone
  exact ⟨hnone, hrefused,
    hforth.2.1 ⟨[.bracket ⟨[⟨'^', true⟩, .plain '-', .plain 'a']⟩]⟩ (by decide +kernel)⟩

end PathGlob
