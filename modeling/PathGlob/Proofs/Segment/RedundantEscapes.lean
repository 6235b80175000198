import PathGlob.Proofs.Cuts
import PathGlob.Segment

/-! # Escapes that change nothing in a segment
A letter, a digit or a dot has no meaning in a segment, neither by itself nor between brackets. To a
matcher it makes no difference whether a backslash stands in front of one.

* **`IsOrdinary`** — the characters without a meaning.
* **`Token.settled`** — a token in which all ordinary members count as escaped; it means the same.
* **`ReadAlike`** — of two texts the same is read; **`readAlike_redundant`** says so of texts that differ
  in a redundant escape.
* **`nameMatches_redundant`** — with a redundant escape a segment matches the same names. -/

namespace PathGlob

variable {fs : Flags} {c d : Char} {a y : Text}

/-! ## Ordinary characters -/

/-- **A character without a meaning anywhere in a pattern**: an ASCII letter, a digit or a dot. -/
def IsOrdinary (c : Char) : Prop := c.isAlphanum = true ∨ c = '.'

instance (c : Char) : Decidable (IsOrdinary c) := inferInstanceAs (Decidable (_ ∨ _))

/-- An ordinary character is none that is not. -/
theorem IsOrdinary.ne (hc : IsOrdinary c) (hd : ¬IsOrdinary d) : c ≠ d := by
  rintro rfl
  exact hd hc

/-- Its mark is plain. -/
theorem IsOrdinary.ofChar_mark (hc : IsOrdinary c) : Mark.ofChar c = .plain := by
  have hwild : isWildcard c = false := by
    simp [isWildcard, hc.ne (d := '*') (by decide), hc.ne (d := '?') (by decide),
      hc.ne (d := '[') (by decide)]
  have hsep : isSeparator c = false := by
    simp [isSeparator, hc.ne (d := '/') (by decide), hc.ne (d := ':') (by decide)]
  simp [Mark.ofChar, hwild, hsep]

/-- Its token is a literal. -/
theorem IsOrdinary.ofChar_token (hc : IsOrdinary c) : Token.ofChar c = .literal c := by
  simp [Token.ofChar, hc.ne (d := '*') (by decide), hc.ne (d := '?') (by decide)]

/-! ## Settled members -/

/-- **A member of which it does not matter whether it is escaped counts as escaped.** -/
def Member.settled (m : Member) : Member := if IsOrdinary m.char then ⟨m.char, true⟩ else m

@[simp] theorem Member.char_settled (m : Member) : m.settled.char = m.char := by
  unfold Member.settled
  split <;> rfl

/-- An ordinary member is settled in the same way, escaped or not. -/
theorem Member.settled_of_ordinary (hc : IsOrdinary c) (escaped : Bool) :
    (⟨c, escaped⟩ : Member).settled = ⟨c, true⟩ := if_pos hc

/-- A member with a meaning is settled as it is. -/
theorem Member.settled_eq_plain_iff (hd : ¬IsOrdinary d) (m : Member) :
    m.settled = Member.plain d ↔ m = Member.plain d := by
  unfold Member.settled
  split
  · rename_i hm
    constructor
    · intro h
      cases h
    · rintro rfl
      exact absurd hm hd
  · rfl

/-- A bracket expression with settled members. -/
def Bracket.settled (b : Bracket) : Bracket := ⟨b.members.map Member.settled⟩

@[simp] theorem Bracket.settled_add (b : Bracket) (m : Member) :
    (b.add m).settled = b.settled.add m.settled := by
  simp [Bracket.settled, Bracket.add]

/-- Settled members make the same items. -/
theorem SetItem.ofMembers_settled (ms : List Member) :
    SetItem.ofMembers (ms.map Member.settled) = SetItem.ofMembers ms := by
  have hdash := Member.settled_eq_plain_iff (d := '-') (by decide)
  fun_induction SetItem.ofMembers ms with
  | case1 => rfl
  | case2 m => simp [SetItem.ofMembers]
  | case3 m n => simp [SetItem.ofMembers]
  | case4 m k ms ih =>
    rw [List.map_cons, List.map_cons, List.map_cons, SetItem.ofMembers, if_pos ((hdash _).2 rfl), ih,
      Member.char_settled, Member.char_settled]
  | case5 m n k ms hn ih =>
    rw [List.map_cons, List.map_cons] at ih
    rw [List.map_cons, List.map_cons, List.map_cons, SetItem.ofMembers, if_neg (mt (hdash n).1 hn), ih,
      Member.char_settled]

/-- Settled members make the same set. -/
theorem CharSet.ofMembers_settled (ms : List Member) :
    CharSet.ofMembers (ms.map Member.settled) = CharSet.ofMembers ms := by
  cases ms with
  | nil => rfl
  | cons m ms =>
    cases ms with
    | nil => simp [CharSet.ofMembers, SetItem.ofMembers]
    | cons n ms =>
      have hitems := SetItem.ofMembers_settled (m :: n :: ms)
      have hothers := SetItem.ofMembers_settled (n :: ms)
      simp only [List.map_cons] at hitems hothers ⊢
      simp only [CharSet.ofMembers, Member.settled_eq_plain_iff (d := '^') (by decide), hitems,
        hothers]

/-! ## Settled tokens -/

/-- **A token with settled members.** -/
def Token.settled : Token → Token
  | .bracket b => .bracket b.settled
  | t => t

@[simp] theorem Token.wellFormed_settled (t : Token) : t.settled.wellFormed = t.wellFormed := by
  cases t with
  | bracket b => simp [Token.settled, Token.wellFormed, Bracket.settled, CharSet.ofMembers_settled]
  | _ => rfl

@[simp] theorem Token.holds_settled (ignoreCase : Bool) (t : Token) (d : Char) :
    t.settled.holds ignoreCase d = t.holds ignoreCase d := by
  cases t with
  | bracket b => simp [Token.settled, Token.holds, Bracket.settled, CharSet.ofMembers_settled]
  | _ => rfl

@[simp] theorem Token.isDot_settled (t : Token) : t.settled.isDot = t.isDot := by
  cases t with
  | bracket b =>
    cases b with
    | mk ms => cases ms <;> simp [Token.settled, Token.isDot, Bracket.settled, Bracket.beginsWith]
  | _ => rfl

/-- Settled tokens use up the same names. -/
theorem tokensAccept_settled (fs : Flags) (ts : List Token) :
    tokensAccept fs (ts.map Token.settled) = tokensAccept fs ts := by
  induction ts with
  | nil => rfl
  | cons t ts ih =>
    funext name
    rw [List.map_cons]
    cases t with
    | anyRun => simp only [Token.settled, tokensAccept, ih]
    | bracket b =>
      have hholds := fun d => Token.holds_settled (fs.has .ignoreCase) (.bracket b) d
      simp only [Token.settled] at hholds
      cases name with
      | nil => simp only [Token.settled, tokensAccept]
      | cons d name => simp only [Token.settled, tokensAccept, hholds, ih]
    | _ => cases name <;> simp only [Token.settled, tokensAccept, ih]

/-! ## Reading -/

/-- Tokens that are read, with settled members. -/
def settledTokens (ts? : Option (List Token)) : Option (List Token) := ts?.map (List.map Token.settled)

/-- A token in front of those that are read. -/
theorem settledTokens_map_cons (t : Token) (ts? : Option (List Token)) :
    settledTokens (ts?.map (t :: ·)) = (settledTokens ts?).map (t.settled :: ·) := by
  cases ts? <;> rfl

/-- How an unescaped character is read. -/
theorem readRest?_unescaped {e : Bool} (hd : ¬(e && d == '\\') = true) (b : Option Bracket) (r : Text) :
    readRest? e b (d :: r) =
      match b with
      | some b =>
        if d = ']' then
          if b.members.isEmpty then none else (readRest? e none r).map (.bracket b :: ·)
        else readRest? e (some (b.add (Member.plain d))) r
      | none =>
        if d = '[' then readRest? e (some Bracket.empty) r
        else (readRest? e none r).map (Token.ofChar d :: ·) := by
  rw [readRest?.eq_def]
  cases b <;> exact if_neg hd

/-- How an escaped character is read. -/
theorem readRest?_escaped (b : Option Bracket) (d : Char) (r : Text) :
    readRest? true b ('\\' :: d :: r) =
      match b with
      | some b => readRest? true (some (b.add ⟨d, true⟩)) r
      | none => (readRest? true none r).map (.literal d :: ·) := by
  rw [readRest?.eq_def]
  cases b <;> rfl

/-- A bracket expression that is settled like one that is open is open, too. -/
theorem exists_of_map_settled {b : Bracket} {b' : Option Bracket}
    (h : (some b).map Bracket.settled = b'.map Bracket.settled) :
    ∃ b'', b' = some b'' ∧ b.settled = b''.settled := by
  cases b' with
  | none => cases h
  | some b' => exact ⟨b', rfl, Option.some.inj h⟩

/-- **The same is read of two texts** in bracket expressions that are the same when they are settled. -/
def ReadAlike (e : Bool) (r r' : Text) : Prop :=
  ∀ b b' : Option Bracket, b.map Bracket.settled = b'.map Bracket.settled →
    settledTokens (readRest? e b r) = settledTokens (readRest? e b' r')

variable {e : Bool} {r r' : Text}

/-- The same character in front changes nothing. -/
theorem ReadAlike.char (h : ReadAlike e r r') (hd : ¬(e && d == '\\') = true) :
    ReadAlike e (d :: r) (d :: r') := by
  intro b b' hb
  rw [readRest?_unescaped hd, readRest?_unescaped hd]
  cases b with
  | none =>
    obtain rfl : b' = none := by simpa using hb.symm
    by_cases hopen : d = '['
    · simp only [if_pos hopen]
      exact h _ _ rfl
    · simp only [if_neg hopen, settledTokens_map_cons]
      rw [h none none rfl]
  | some b =>
    obtain ⟨b', rfl, hsettled⟩ := exists_of_map_settled hb
    by_cases hclose : d = ']'
    · have hempty : b.members.isEmpty = b'.members.isEmpty := by
        simpa [Bracket.settled] using congrArg (fun b => b.members.isEmpty) hsettled
      simp only [if_pos hclose, hempty]
      split
      · rfl
      · rw [settledTokens_map_cons, settledTokens_map_cons, h none none rfl, Token.settled,
          Token.settled, hsettled]
    · simp only [if_neg hclose]
      exact h _ _ (by simp [hsettled])

/-- The same escape in front changes nothing. -/
theorem ReadAlike.escape (h : ReadAlike e r r') (he : e = true) (d : Char) :
    ReadAlike e ('\\' :: d :: r) ('\\' :: d :: r') := by
  subst he
  intro b b' hb
  rw [readRest?_escaped, readRest?_escaped]
  cases b with
  | none =>
    obtain rfl : b' = none := by simpa using hb.symm
    simp only [settledTokens_map_cons]
    rw [h none none rfl]
  | some b =>
    obtain ⟨b', rfl, hsettled⟩ := exists_of_map_settled hb
    exact h _ _ (by simp [hsettled])

/-- **What is read hangs on the settled members of the bracket expression only.** -/
theorem readAlike_refl (e : Bool) (y : Text) : ReadAlike e y y := by
  have hnil : ReadAlike e [] [] := by
    intro b b' hb
    cases b <;> cases b' <;> simp_all [readRest?]
  fun_induction marks e y with
  | case1 => exact hnil
  | case2 c =>
    by_cases hc : (e && c == '\\') = true
    · intro b b' hb
      simp only [readRest?, if_pos hc]
      cases b <;> cases b' <;> simp_all
    · exact hnil.char hc
  | case3 c d r hc ih =>
    obtain ⟨he, rfl⟩ : e = true ∧ c = '\\' := by simpa using hc
    exact ih.escape he d
  | case4 c d r hc ih => exact ih.char hc

/-- **A redundant escape changes nothing to what is read.** -/
theorem readAlike_redundant (he : fs.escapes = true) (hc : IsOrdinary c) (ha : fs.Whole a)
    (y : Text) : ReadAlike fs.escapes (a ++ c :: y) (a ++ '\\' :: c :: y) := by
  induction a, ha using Flags.Whole.induction with
  | nil =>
    have hplain : ¬(fs.escapes && c == '\\') = true := by simp [hc.ne (d := '\\') (by decide)]
    intro b b' hb
    rw [List.nil_append, List.nil_append, readRest?_unescaped hplain]
    rw [he] at hplain ⊢
    rw [readRest?_escaped]
    cases b with
    | none =>
      obtain rfl : b' = none := by simpa using hb.symm
      simp only [if_neg (hc.ne (d := '[') (by decide)), hc.ofChar_token]
    | some b =>
      obtain ⟨b', rfl, hsettled⟩ := exists_of_map_settled hb
      have hmember : (Member.plain c).settled = (⟨c, true⟩ : Member).settled := by
        rw [Member.plain, Member.settled_of_ordinary hc, Member.settled_of_ordinary hc]
      simp only [if_neg (hc.ne (d := ']') (by decide))]
      exact readAlike_refl true y _ _ (by simp [hsettled, hmember])
  | char d r hd _ _ ih => exact ih.char hd
  | escape d r he _ ih => exact ih.escape he d

/-! ## Matching -/

/-- **Segments of which the same is read match the same names.** -/
theorem ReadAlike.nameMatches (h : ReadAlike fs.escapes r r') (hr : r.isEmpty = false)
    (hr' : r'.isEmpty = false) (name : Text) : PathGlob.nameMatches fs r name = PathGlob.nameMatches fs r' name := by
  have hread := h none none rfl
  have hcompile : ∀ t : Text, Segment.compile? fs t = (readRest? fs.escapes none t).bind fun ts =>
      if ts.all Token.wellFormed then some ⟨ts⟩ else none := by
    intro t
    rw [Segment.compile?, readTokens?]
    cases readRest? fs.escapes none t <;> rfl
  unfold PathGlob.nameMatches NameMatcher.ofSegment NameMatcher.accepts
  simp only [hr, hr', hcompile, Bool.false_eq_true, if_false]
  cases hts : readRest? fs.escapes none r with
  | none =>
    cases hts' : readRest? fs.escapes none r' with
    | none => rfl
    | some ts' => simp [hts, hts', settledTokens] at hread
  | some ts =>
    cases hts' : readRest? fs.escapes none r' with
    | none => simp [hts, hts', settledTokens] at hread
    | some ts' =>
      have hsettled : ts.map Token.settled = ts'.map Token.settled := by
        simpa [hts, hts', settledTokens] using hread
      have hformed : ts.all Token.wellFormed = ts'.all Token.wellFormed := by
        have hall := congrArg (List.all · Token.wellFormed) hsettled
        simpa [List.all_map, Function.comp_def] using hall
      have hdot : Segment.explicitDot ⟨ts⟩ = Segment.explicitDot ⟨ts'⟩ := by
        have hhead := congrArg (fun us => us.head?.any Token.isDot) hsettled
        simpa [Segment.explicitDot, Option.any_map, Function.comp_def] using hhead
      have haccepts : Segment.accepts fs ⟨ts⟩ name = Segment.accepts fs ⟨ts'⟩ name := by
        have htokens := congrArg (tokensAccept fs · name) hsettled
        simp only [tokensAccept_settled] at htokens
        exact htokens
      cases hwell : ts'.all Token.wellFormed <;>
        simp only [hformed, hwell, hdot, haccepts, Option.bind_some, Bool.false_eq_true, if_false,
          if_true]

/-- **With a redundant escape a segment matches the same names.** -/
theorem nameMatches_redundant (he : fs.escapes = true) (hc : IsOrdinary c) (ha : fs.Whole a)
    (y name : Text) :
    nameMatches fs (a ++ c :: y) name = nameMatches fs (a ++ '\\' :: c :: y) name :=
  (readAlike_redundant he hc ha y).nameMatches (by cases a <;> rfl) (by cases a <;> rfl) name

end PathGlob
