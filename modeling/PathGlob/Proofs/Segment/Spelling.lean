import PathGlob.Segment.Token

/-! # The spelling of segments
How the tokens of a segment are written, and what the members of a class stand for, said without a
reader.

* **`SpellsMembers`**, **`Spells`** — the spellings of members and of tokens.
* **`readTokens?_eq_some_iff`** — a segment is read as the tokens that it spells, and spells no other
  ones (`Spells.unique`).
* **`ReadsItems`**, **`ReadsSet`** — the items that members stand for, from left to right, and the
  set, which may be negated.
* **`readsSet_iff`** — members stand for one set, the one that the library takes. -/

namespace PathGlob

/-! ## Spellings -/

/-- **How members of a class are written**: one behind the other, each as it is or behind a
backslash. The end of the class and, if there are escapes, a backslash are written with a backslash
only. -/
inductive SpellsMembers (escapes : Bool) : List Member → Text → Prop
  /-- No member. -/
  | nil : SpellsMembers escapes [] []
  /-- A member as it is. -/
  | plain {c : Char} {ms : List Member} {u : Text} (hend : c ≠ ']')
      (hescape : escapes = true → c ≠ '\\') (h : SpellsMembers escapes ms u) :
      SpellsMembers escapes (⟨c, false⟩ :: ms) (c :: u)
  /-- A member behind a backslash. -/
  | escaped {ms : List Member} {u : Text} (hescapes : escapes = true) (c : Char)
      (h : SpellsMembers escapes ms u) : SpellsMembers escapes (⟨c, true⟩ :: ms) ('\\' :: c :: u)

/-- **How tokens are written.** -/
inductive Spells (escapes : Bool) : List Token → Text → Prop
  /-- No token. -/
  | nil : Spells escapes [] []
  /-- A character that has no meaning. -/
  | literal {c : Char} {ts : List Token} {r : Text} (hplain : c ∉ ['*', '?', '['])
      (hescape : escapes = true → c ≠ '\\') (h : Spells escapes ts r) :
      Spells escapes (.literal c :: ts) (c :: r)
  /-- A character behind a backslash. -/
  | escaped {ts : List Token} {r : Text} (hescapes : escapes = true) (c : Char)
      (h : Spells escapes ts r) : Spells escapes (.literal c :: ts) ('\\' :: c :: r)
  /-- A backslash at the very end. -/
  | backslash (hescapes : escapes = true) : Spells escapes [.literal '\\'] ['\\']
  /-- Any one character. -/
  | anyChar {ts : List Token} {r : Text} (h : Spells escapes ts r) :
      Spells escapes (.anyChar :: ts) ('?' :: r)
  /-- Any run of characters. -/
  | anyRun {ts : List Token} {r : Text} (h : Spells escapes ts r) :
      Spells escapes (.anyRun :: ts) ('*' :: r)
  /-- A class, which has a member at least. -/
  | bracket {ms : List Member} {u : Text} {ts : List Token} {r : Text} (hne : ms ≠ [])
      (hmembers : SpellsMembers escapes ms u) (h : Spells escapes ts r) :
      Spells escapes (.bracket ⟨ms⟩ :: ts) ('[' :: (u ++ ']' :: r))

/-! ## The reader -/

section

variable {escapes : Bool} {ts : List Token} {c d : Char} {r : Text} {b : Bracket}

/-- The rest of a segment behind the members `before` of a class that is open. -/
def SpellsClass (escapes : Bool) (before : List Member) (ts : List Token) (p : Text) : Prop :=
  ∃ ms u ts' r, p = u ++ ']' :: r ∧ SpellsMembers escapes ms u ∧ before ++ ms ≠ [] ∧
    ts = .bracket ⟨before ++ ms⟩ :: ts' ∧ Spells escapes ts' r

/-- Nothing is left to be written for no token. -/
theorem spells_nil_iff : Spells escapes ts [] ↔ ts = [] := by
  constructor
  · rintro ⟨⟩
    rfl
  · rintro rfl
    exact .nil

/-- A backslash and a character behind it. -/
theorem spells_escaped_iff (hescapes : escapes = true) :
    Spells escapes ts ('\\' :: d :: r) ↔ ∃ ts', Spells escapes ts' r ∧ .literal d :: ts' = ts := by
  constructor
  · intro h
    cases h with
    | literal _ hescape _ => exact absurd rfl (hescape hescapes)
    | escaped _ _ h => exact ⟨_, h, rfl⟩
  · rintro ⟨ts', h, rfl⟩
    exact .escaped hescapes d h

/-- A backslash at the very end. -/
theorem spells_backslash_iff (hescapes : escapes = true) :
    Spells escapes ts ['\\'] ↔ ts = [.literal '\\'] := by
  constructor
  · intro h
    cases h with
    | literal _ hescape _ => exact absurd rfl (hescape hescapes)
    | backslash _ => rfl
  · rintro rfl
    exact .backslash hescapes

/-- The beginning of a class. -/
theorem spells_opening_iff :
    Spells escapes ts ('[' :: r) ↔ SpellsClass escapes [] ts r := by
  constructor
  · intro h
    cases h with
    | literal hplain _ _ => simp at hplain
    | bracket hne hmembers h => exact ⟨_, _, _, _, rfl, hmembers, hne, rfl, h⟩
  · rintro ⟨ms, u, ts', r, rfl, hmembers, hne, rfl, h⟩
    exact .bracket hne hmembers h

/-- Any other character. -/
theorem spells_cons_iff (hescape : escapes = true → c ≠ '\\') (hopen : c ≠ '[') :
    Spells escapes ts (c :: r) ↔ ∃ ts', Spells escapes ts' r ∧ Token.ofChar c :: ts' = ts := by
  constructor
  · intro h
    cases h with
    | literal hplain _ h =>
      simp only [List.mem_cons, List.not_mem_nil, or_false, not_or] at hplain
      exact ⟨_, h, by rw [Token.ofChar, if_neg hplain.1, if_neg hplain.2.1]⟩
    | escaped hescapes _ _ => exact absurd rfl (hescape hescapes)
    | backslash hescapes => exact absurd rfl (hescape hescapes)
    | anyChar h => exact ⟨_, h, rfl⟩
    | anyRun h => exact ⟨_, h, rfl⟩
    | bracket _ _ _ => exact absurd rfl hopen
  · rintro ⟨ts', h, rfl⟩
    by_cases hrun : c = '*'
    · subst hrun
      exact .anyRun h
    by_cases hany : c = '?'
    · subst hany
      exact .anyChar h
    rw [Token.ofChar, if_neg hrun, if_neg hany]
    exact .literal (by simp [hrun, hany, hopen]) hescape h

/-- A class has an end. -/
theorem not_spellsClass_nil {before : List Member} : ¬ SpellsClass escapes before ts [] := by
  rintro ⟨ms, u, ts', r, hp, -⟩
  simp at hp

/-- The end of a class. -/
theorem spellsClass_closing_iff {before : List Member} :
    SpellsClass escapes before ts (']' :: r) ↔
      before ≠ [] ∧ ∃ ts', Spells escapes ts' r ∧ .bracket ⟨before⟩ :: ts' = ts := by
  constructor
  · rintro ⟨ms, u, ts', r', hp, hmembers, hne, rfl, h⟩
    cases hmembers with
    | nil =>
      obtain ⟨-, rfl⟩ := List.cons.inj hp
      rw [List.append_nil] at hne ⊢
      exact ⟨hne, ts', h, rfl⟩
    | plain hend _ _ => exact absurd (List.cons.inj hp).1.symm hend
    | escaped _ _ _ => exact absurd (List.cons.inj hp).1 (by decide)
  · rintro ⟨hne, ts', h, rfl⟩
    exact ⟨[], [], ts', r, rfl, .nil, by simpa using hne, by simp, h⟩

/-- A member behind a backslash. -/
theorem spellsClass_escaped_iff {before : List Member} (hescapes : escapes = true) :
    SpellsClass escapes before ts ('\\' :: d :: r) ↔
      SpellsClass escapes (before ++ [⟨d, true⟩]) ts r := by
  constructor
  · rintro ⟨ms, u, ts', r', hp, hmembers, hne, rfl, h⟩
    cases hmembers with
    | nil => exact absurd (List.cons.inj hp).1 (by decide)
    | plain _ hescape _ => exact absurd (List.cons.inj hp).1.symm (hescape hescapes)
    | escaped _ _ hmembers =>
      simp only [List.cons_append, List.cons.injEq, true_and] at hp
      obtain ⟨rfl, rfl⟩ := hp
      exact ⟨_, _, ts', r', rfl, hmembers, by simp, by simp, h⟩
  · rintro ⟨ms, u, ts', r', rfl, hmembers, hne, rfl, h⟩
    exact ⟨_, _, ts', r', rfl, .escaped hescapes d hmembers, by simp, by simp, h⟩

/-- A backslash at the very end does not end a class. -/
theorem not_spellsClass_backslash {before : List Member} (hescapes : escapes = true) :
    ¬ SpellsClass escapes before ts ['\\'] := by
  rintro ⟨ms, u, ts', r, hp, hmembers, -⟩
  cases hmembers with
  | nil => exact absurd (List.cons.inj hp).1 (by decide)
  | plain _ hescape _ => exact absurd (List.cons.inj hp).1.symm (hescape hescapes)
  | escaped _ _ _ => simp at hp

/-- A member as it is. -/
theorem spellsClass_cons_iff {before : List Member} (hescape : escapes = true → c ≠ '\\')
    (hend : c ≠ ']') :
    SpellsClass escapes before ts (c :: r) ↔
      SpellsClass escapes (before ++ [⟨c, false⟩]) ts r := by
  constructor
  · rintro ⟨ms, u, ts', r', hp, hmembers, hne, rfl, h⟩
    cases hmembers with
    | nil => exact absurd (List.cons.inj hp).1 hend
    | plain _ _ hmembers =>
      simp only [List.cons_append, List.cons.injEq] at hp
      obtain ⟨rfl, rfl⟩ := hp
      exact ⟨_, _, ts', r', rfl, hmembers, by simp, by simp, h⟩
    | escaped hescapes _ _ => exact absurd (List.cons.inj hp).1 (hescape hescapes)
  · rintro ⟨ms, u, ts', r', rfl, hmembers, hne, rfl, h⟩
    exact ⟨_, _, ts', r', rfl, .plain hend hescape hmembers, by simp, by simp, h⟩

/-- What the rest of a segment spells, in a class or outside of one. -/
def SpellsRest (escapes : Bool) : Option Bracket → List Token → Text → Prop
  | none, ts, p => Spells escapes ts p
  | some b, ts, p => SpellsClass escapes b.members ts p

end

/-- **The reader reads what is spelled.** -/
theorem readRest?_eq_some_iff {escapes : Bool} {current : Option Bracket} {p : Text}
    {ts : List Token} :
    readRest? escapes current p = some ts ↔ SpellsRest escapes current ts p := by
  have hescaped {c : Char} (h : (escapes && c == '\\') = true) : escapes = true ∧ c = '\\' := by
    simpa using h
  have hplain {c : Char} (h : ¬ (escapes && c == '\\') = true) : escapes = true → c ≠ '\\' := by
    simpa using h
  fun_induction readRest? escapes current p generalizing ts with
  | case1 current hcurrent =>
    obtain rfl := Option.isNone_iff_eq_none.1 hcurrent
    rw [SpellsRest, spells_nil_iff, Option.some.injEq, eq_comm]
  | case2 current hcurrent =>
    obtain ⟨b, rfl⟩ := Option.ne_none_iff_exists'.1 (by simpa using hcurrent)
    exact iff_of_false (by simp) not_spellsClass_nil
  | case3 current c h hcurrent =>
    obtain ⟨hescapes, rfl⟩ := hescaped h
    obtain rfl := Option.isNone_iff_eq_none.1 hcurrent
    rw [SpellsRest, spells_backslash_iff hescapes, Option.some.injEq, eq_comm]
  | case4 current c h hcurrent =>
    obtain ⟨hescapes, rfl⟩ := hescaped h
    obtain ⟨b, rfl⟩ := Option.ne_none_iff_exists'.1 (by simpa using hcurrent)
    exact iff_of_false (by simp) (not_spellsClass_backslash hescapes)
  | case5 c h d r b ih =>
    obtain ⟨hescapes, rfl⟩ := hescaped h
    exact ih.trans (spellsClass_escaped_iff hescapes).symm
  | case6 c h d r ih =>
    obtain ⟨hescapes, rfl⟩ := hescaped h
    simp only [Option.map_eq_some_iff, ih, SpellsRest, spells_escaped_iff hescapes]
  | case7 r b hempty _ =>
    rw [SpellsRest, spellsClass_closing_iff]
    exact iff_of_false (by simp) (fun h => h.1 (List.isEmpty_iff.1 hempty))
  | case8 r b hempty _ ih =>
    have hne : b.members ≠ [] := fun h => hempty (List.isEmpty_iff.2 h)
    simp only [Option.map_eq_some_iff, ih, SpellsRest, spellsClass_closing_iff, hne, ne_eq,
      not_false_eq_true, true_and]
  | case9 c r h b hend ih => exact ih.trans (spellsClass_cons_iff (hplain h) hend).symm
  | case10 r _ ih => exact ih.trans spells_opening_iff.symm
  | case11 c r h hopen ih =>
    simp only [Option.map_eq_some_iff, ih, SpellsRest, spells_cons_iff (hplain h) hopen]

/-- **A segment is read as the tokens that it spells.** -/
theorem readTokens?_eq_some_iff {escapes : Bool} {p : Text} {ts : List Token} :
    readTokens? escapes p = some ts ↔ Spells escapes ts p :=
  readRest?_eq_some_iff

/-- A segment spells no two lists of tokens. -/
theorem Spells.unique {escapes : Bool} {p : Text} {ts us : List Token} (hts : Spells escapes ts p)
    (hus : Spells escapes us p) : ts = us := by
  have hread := readTokens?_eq_some_iff.2 hts
  rw [readTokens?_eq_some_iff.2 hus] at hread
  exact (Option.some.inj hread).symm

/-- A class that is spelled has a member. -/
theorem Spells.members_ne_nil {escapes : Bool} {p : Text} {ts : List Token} (h : Spells escapes ts p)
    {b : Bracket} (hb : .bracket b ∈ ts) : b.members ≠ [] := by
  induction h with
  | nil => cases hb
  | bracket hne _ _ ih =>
    rcases List.mem_cons.1 hb with hb | hb
    · cases hb
      exact hne
    · exact ih hb
  | backslash _ => simp at hb
  | literal _ _ _ ih => exact ih (by simpa using hb)
  | escaped _ _ _ ih => exact ih (by simpa using hb)
  | anyChar _ ih => exact ih (by simpa using hb)
  | anyRun _ ih => exact ih (by simpa using hb)

/-! ## Members of a class -/

/-- **The items that members stand for**, read from left to right: an unescaped `-` between two
members makes a range of them, and any other member stands for itself. -/
inductive ReadsItems : List Member → List SetItem → Prop
  /-- No member. -/
  | nil : ReadsItems [] []
  /-- A member that begins a range. -/
  | range (m k : Member) {ms : List Member} {is : List SetItem} (h : ReadsItems ms is) :
      ReadsItems (m :: Member.plain '-' :: k :: ms) (.range m.char k.char :: is)
  /-- A member that does not. -/
  | single (m : Member) {ms : List Member} {is : List SetItem}
      (hno : ∀ k ks, ms ≠ Member.plain '-' :: k :: ks) (h : ReadsItems ms is) :
      ReadsItems (m :: ms) (.single m.char :: is)

/-- **The set that members stand for**: an unescaped `^` in front of others negates it. -/
inductive ReadsSet : List Member → CharSet → Prop
  /-- A negated set. -/
  | negated {ms : List Member} {is : List SetItem} (hne : ms ≠ []) (h : ReadsItems ms is) :
      ReadsSet (Member.plain '^' :: ms) ⟨true, is⟩
  /-- Any other set. -/
  | plain {ms : List Member} {is : List SetItem} (hno : ∀ ns, ms = Member.plain '^' :: ns → ns = [])
      (h : ReadsItems ms is) : ReadsSet ms ⟨false, is⟩

/-- Members stand for one list of items. -/
theorem readsItems_iff {ms : List Member} {is : List SetItem} :
    ReadsItems ms is ↔ SetItem.ofMembers ms = is := by
  constructor
  · intro h
    induction h with
    | nil => rfl
    | range m k h ih => rw [SetItem.ofMembers, if_pos rfl, ih]
    | @single m ms is hno h ih =>
      rcases ms with _ | ⟨n, _ | ⟨k, ks⟩⟩
      · rw [← ih]
        rfl
      · rw [← ih]
        rfl
      · have hn : n ≠ Member.plain '-' := fun h => hno k ks (by rw [h])
        rw [SetItem.ofMembers, if_neg hn, ih]
  · rintro rfl
    fun_induction SetItem.ofMembers ms with
    | case1 => exact .nil
    | case2 m => exact .single m (by simp) .nil
    | case3 m n => exact .single m (by simp) (.single n (by simp) .nil)
    | case4 m k ms ih => exact .range m k ih
    | case5 m n k ms hn ih =>
      exact .single m (fun k' ks h => hn (List.cons.inj h).1) ih

/-- **Members stand for one set**, the one that the library takes. -/
theorem readsSet_iff {ms : List Member} {s : CharSet} :
    ReadsSet ms s ↔ CharSet.ofMembers ms = s := by
  constructor
  · intro h
    cases h with
    | negated hne h =>
      obtain ⟨n, ns, rfl⟩ := List.exists_cons_of_ne_nil hne
      rw [CharSet.ofMembers, if_pos rfl, readsItems_iff.1 h]
    | plain hno h =>
      rw [← readsItems_iff.1 h]
      rcases ms with _ | ⟨m, _ | ⟨n, ns⟩⟩
      · rfl
      · rfl
      · have hm : m ≠ Member.plain '^' := fun h => List.cons_ne_nil n ns (hno _ (by rw [h]))
        rw [CharSet.ofMembers, if_neg hm]
  · rintro rfl
    rcases ms with _ | ⟨m, _ | ⟨n, ns⟩⟩
    · exact .plain (by simp) (readsItems_iff.2 rfl)
    · exact .plain (by simp) (readsItems_iff.2 rfl)
    · by_cases hm : m = Member.plain '^'
      · rw [CharSet.ofMembers, if_pos hm, hm]
        exact .negated (List.cons_ne_nil n ns) (readsItems_iff.2 rfl)
      · rw [CharSet.ofMembers, if_neg hm]
        exact .plain (fun _ h => absurd (List.cons.inj h).1 hm) (readsItems_iff.2 rfl)

end PathGlob
