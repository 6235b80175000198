import PathGlob.Proofs.Segment.Meaning

/-! # Segments as regular expressions
The regular expression of a segment is a text, which an engine reads by rules of its own. This module
has these rules, as far as segments need them, and shows that the engine reads the tokens of the
segment and matches the same names.

* **`readSet?`** — a set between square brackets; **`readRawSet?`** — the same, whether or not its
  ranges run forwards; **`readPart?`** — a part of an expression, which may be repeated;
  **`ReadsExpression`** — a whole expression.
* **`ExpressionPart.Takes`** — the texts that a part takes; **`ExpressionMatches`** — those that a
  whole expression matches.
* **`exists_expression?_readRawSet?`** — the set of a bracket expression is read as the one that its
  members stand for.
* **`readsExpression_flatMap`** — the expression of tokens is read as their parts.
* **`Segment.accepts_iff_expression`** — it matches what the segment accepts.
* **`nameMatches_iff_spelled`** — the main statement. -/

namespace PathGlob

/-! ## The language of expressions -/

/-- The members of a set up to its end, and the text behind it. A backslash makes a member of the
character behind it, which must not be a letter or a digit, as these have a meaning there. -/
def readSetMembers? : Text → Option (List Member × Text)
  | [] => none
  | [c] => if c = ']' then some ([], []) else none
  | c :: d :: r =>
    if c = ']' then some ([], d :: r)
    else if c = '\\' then
      if d.isAlphanum then none
      else (readSetMembers? r).map fun x => (⟨d, true⟩ :: x.1, x.2)
    else (readSetMembers? (d :: r)).map fun x => (⟨c, false⟩ :: x.1, x.2)

/-- The items of a set, and the text behind it; there is none if a range runs backwards. An end in
front of all members is a member. -/
def readSetBody? (negated : Bool) (t : Text) : Option (CharSet × Text) :=
  let members? :=
    if t.head? = some ']' then
      (readSetMembers? t.tail).map fun x => (⟨']', false⟩ :: x.1, x.2)
    else readSetMembers? t
  members?.bind fun x =>
    let s : CharSet := ⟨negated, SetItem.ofMembers x.1⟩
    if s.wellFormed then some (s, x.2) else none

/-- The set behind its opening bracket, and the text behind it. A `^` at the front negates. -/
def readSet? (t : Text) : Option (CharSet × Text) :=
  if t.head? = some '^' then readSetBody? true t.tail else readSetBody? false t

/-- The items of a set, and the text behind it, whether or not its ranges run forwards. -/
def readRawSetBody? (negated : Bool) (t : Text) : Option (CharSet × Text) :=
  let members? :=
    if t.head? = some ']' then
      (readSetMembers? t.tail).map fun x => (⟨']', false⟩ :: x.1, x.2)
    else readSetMembers? t
  members?.map fun x => (⟨negated, SetItem.ofMembers x.1⟩, x.2)

/-- The set behind its opening bracket, and the text behind it, whether or not its ranges run
forwards. -/
def readRawSet? (t : Text) : Option (CharSet × Text) :=
  if t.head? = some '^' then readRawSetBody? true t.tail else readRawSetBody? false t

/-- **A set is read if its ranges run forwards.** -/
theorem readSet?_eq (t : Text) :
    readSet? t = (readRawSet? t).bind fun x => if x.1.wellFormed then some x else none := by
  have hbody : ∀ negated u, readSetBody? negated u =
      (readRawSetBody? negated u).bind fun x => if x.1.wellFormed then some x else none := by
    intro negated u
    rw [readSetBody?, readRawSetBody?, Option.bind_map]
    rfl
  rw [readSet?, readRawSet?]
  split <;> exact hbody _ _

/-- What a part of an expression is made of. -/
inductive ExpressionAtom
  /-- One particular character. -/
  | char (c : Char)
  /-- Any one character. -/
  | any
  /-- One character of a set. -/
  | set (s : CharSet)

/-- A part of an expression. -/
structure ExpressionPart where
  /-- What it is made of. -/
  atom : ExpressionAtom
  /-- Whether it stands for any number of characters. -/
  repeated : Bool

/-- The characters that have a meaning in an expression, apart from the ones that begin an atom. -/
def expressionOperators : List Char := ['*', '+', '?', '|', '^', '$', '(', ')', '\x7b', '\x7d']

/-- The atom at the front of an expression, and the text behind it. -/
def readAtom? : Text → Option (ExpressionAtom × Text)
  | [] => none
  | c :: r =>
    if c = '[' then (readSet? r).map fun x => (.set x.1, x.2)
    else if c = '.' then some (.any, r)
    else if c = '\\' then
      match r with
      | [] => none
      | d :: r => if d.isAlphanum then none else some (.char d, r)
    else if c ∈ expressionOperators then none
    else some (.char c, r)

/-- The part at the front of an expression, and the text behind it. A star repeats the atom in front
of it; other operators, also behind a star, are not read. -/
def readPart? (t : Text) : Option (ExpressionPart × Text) :=
  (readAtom? t).bind fun x =>
    if x.2.head? = some '*' then
      if x.2.tail.head?.any (· ∈ expressionOperators) then none else some (⟨x.1, true⟩, x.2.tail)
    else some (⟨x.1, false⟩, x.2)

/-- **An expression is read as parts**, one behind the other. -/
inductive ReadsExpression : List ExpressionPart → Text → Prop
  /-- The empty expression. -/
  | nil : ReadsExpression [] []
  /-- A part and the parts behind it. -/
  | cons {t r : Text} {p : ExpressionPart} {ps : List ExpressionPart} (h : readPart? t = some (p, r))
      (hrest : ReadsExpression ps r) : ReadsExpression (p :: ps) t

/-- Whether an atom matches a character. -/
def ExpressionAtom.holds (ignoreCase : Bool) : ExpressionAtom → Char → Bool
  | .char c, d => if ignoreCase then sameLetter c d else c == d
  | .any, _ => true
  | .set s, d => s.holds ignoreCase d

/-- The texts that a part takes. -/
def ExpressionPart.Takes (ignoreCase : Bool) (p : ExpressionPart) (u : Text) : Prop :=
  if p.repeated then ∀ c ∈ u, p.atom.holds ignoreCase c = true
  else ∃ c, u = [c] ∧ p.atom.holds ignoreCase c = true

/-- **An expression matches a whole text**, which is cut into texts that its parts take in order. -/
def ExpressionMatches (ignoreCase : Bool) (expression text : Text) : Prop :=
  ∃ ps us, ReadsExpression ps expression ∧ text = us.flatten ∧
    List.Forall₂ (ExpressionPart.Takes ignoreCase) ps us

/-- An expression is read in one way only. -/
theorem ReadsExpression.unique {t : Text} {ps qs : List ExpressionPart} (hp : ReadsExpression ps t)
    (hq : ReadsExpression qs t) : ps = qs := by
  induction hp generalizing qs with
  | nil =>
    cases hq with
    | nil => rfl
    | cons h _ => cases h
  | cons h _ ih =>
    cases hq with
    | nil => cases h
    | cons h' hrest =>
      rw [h] at h'
      cases h'
      rw [ih hrest]

/-! ## Sets -/

/-- A member as it stands in the set of its bracket expression: behind a backslash or not. -/
def Member.rendered (m : Member) : Member :=
  ⟨m.char, m.char ∈ setSpecials ∨ (m.escaped ∧ (m.char = '-' ∨ m.char = '^'))⟩

section

variable {m : Member} {ms : List Member} {c : Char} {r : Text}

/-- Rendering keeps what has a meaning: only an unescaped `-` or `^` is rendered as one. -/
theorem Member.rendered_eq_plain_iff (hc : c = '-' ∨ c = '^') :
    m.rendered = Member.plain c ↔ m = Member.plain c := by
  rcases m with ⟨d, escaped⟩
  simp only [Member.rendered, Member.plain, Member.mk.injEq]
  constructor
  · rintro ⟨rfl, h⟩
    cases escaped with
    | false => exact ⟨rfl, rfl⟩
    | true => simp [hc] at h
  · rintro ⟨rfl, rfl⟩
    rcases hc with rfl | rfl <;> simp [setSpecials]

/-- So the items stay the same. -/
theorem SetItem.ofMembers_rendered (ms : List Member) :
    SetItem.ofMembers (ms.map Member.rendered) = SetItem.ofMembers ms := by
  fun_induction SetItem.ofMembers ms with
  | case1 => rfl
  | case2 m => rfl
  | case3 m n => rfl
  | case4 m k ms ih =>
    have hn := (Member.rendered_eq_plain_iff (m := Member.plain '-') (.inl rfl)).2 rfl
    rw [List.map_cons, List.map_cons, List.map_cons, SetItem.ofMembers, if_pos hn, ih]
    rfl
  | case5 m n k ms hn ih =>
    have hn' : n.rendered ≠ Member.plain '-' :=
      fun h => hn ((Member.rendered_eq_plain_iff (.inl rfl)).1 h)
    rw [List.map_cons, List.map_cons, List.map_cons, SetItem.ofMembers, if_neg hn', ← List.map_cons,
      ← List.map_cons, ih]
    rfl

/-- A member is written behind a backslash, which can stand in front of its character, or as it is,
and then it is not misread. -/
theorem Member.expression_cases (m : Member) :
    (m.rendered = ⟨m.char, true⟩ ∧ m.char.isAlphanum = false ∧ m.expression = ['\\', m.char]) ∨
      (m.rendered = ⟨m.char, false⟩ ∧ m.char ≠ ']' ∧ m.char ≠ '\\' ∧ m.expression = [m.char]) := by
  by_cases h : m.char ∈ setSpecials ∨ (m.escaped ∧ (m.char = '-' ∨ m.char = '^'))
  · refine .inl ⟨by simp [Member.rendered, h], ?_, by rw [Member.expression, if_pos h]⟩
    have hmem : m.char ∈ setSpecials ++ ['-', '^'] := by
      rcases h with h | ⟨-, h⟩
      · exact List.mem_append_left _ h
      · exact List.mem_append_right _ (by simpa using h)
    have hall : (setSpecials ++ ['-', '^']).all (!·.isAlphanum) = true := by decide
    simpa using List.all_eq_true.1 hall m.char hmem
  · refine .inr ⟨by simp [Member.rendered, h], ?_, ?_, by rw [Member.expression, if_neg h]⟩
    · rintro he
      exact h (.inl (by rw [he]; decide))
    · rintro he
      exact h (.inl (by rw [he]; decide))

/-- The members of a set are read as they were rendered. -/
theorem readSetMembers?_body (ms : List Member) (r : Text) :
    readSetMembers? (ms.flatMap Member.expression ++ ']' :: r) = some (ms.map Member.rendered, r) := by
  induction ms with
  | nil => cases r <;> rfl
  | cons m ms ih =>
    rw [List.flatMap_cons, List.append_assoc, List.map_cons]
    rcases m.expression_cases with ⟨hm, hchar, he⟩ | ⟨hm, hend, hescape, he⟩
    · rw [he, hm, List.cons_append, List.singleton_append, readSetMembers?, if_neg (by decide),
        if_pos rfl, hchar, if_neg (by decide), ih]
      rfl
    · obtain ⟨d, u, hu⟩ := List.exists_cons_of_ne_nil
        (List.append_ne_nil_of_right_ne_nil (ms.flatMap Member.expression) (List.cons_ne_nil ']' r))
      rw [hu] at ih
      rw [he, hm, List.singleton_append, hu, readSetMembers?, if_neg hend, if_neg hescape, ih]
      rfl

/-- The items of a set are those of its members. -/
theorem readRawSetBody?_body (negated : Bool) (hne : ms ≠ []) (r : Text) :
    readRawSetBody? negated (ms.flatMap Member.expression ++ ']' :: r) =
      some (⟨negated, SetItem.ofMembers ms⟩, r) := by
  obtain ⟨m, ms, rfl⟩ := List.exists_cons_of_ne_nil hne
  have hhead : ((m :: ms).flatMap Member.expression ++ ']' :: r).head? ≠ some ']' := by
    rw [List.flatMap_cons]
    rcases m.expression_cases with ⟨-, -, he⟩ | ⟨-, hend, -, he⟩
    · simp [he]
    · simpa [he] using hend
  simp only [readRawSetBody?, if_neg hhead, readSetMembers?_body, Option.map_some,
    SetItem.ofMembers_rendered]

/-- **How the set of a bracket expression is written**: a `^` in front if it is negated, and then the
rendering of members with the same items, which does not begin with a `^` otherwise. -/
theorem exists_expression?_eq {b : Bracket} (hne : b.members ≠ []) :
    ∃ negated ms, ms ≠ [] ∧ CharSet.ofMembers b.members = ⟨negated, SetItem.ofMembers ms⟩ ∧
      b.expression? = some ('[' :: ((if negated then ['^'] else []) ++
        (ms.flatMap Member.expression ++ [']']))) ∧
      (negated = false → ∀ r, (ms.flatMap Member.expression ++ r).head? ≠ some '^') := by
  rcases b with ⟨_ | ⟨m, ms⟩⟩
  · exact absurd rfl hne
  by_cases hnegated : m = Member.plain '^'
  · subst hnegated
    cases ms with
    | nil =>
      -- alone, it is written behind a backslash
      exact ⟨false, [⟨'^', true⟩], by simp, rfl, rfl, fun _ r h => by cases h⟩
    | cons n ns =>
      refine ⟨true, n :: ns, by simp, rfl, ?_, by simp⟩
      simp [Bracket.expression?, Bracket.body, Member.expression, Member.plain, setSpecials]
  · refine ⟨false, m :: ms, by simp, ?_, ?_, fun _ r => ?_⟩
    · cases ms with
      | nil => rfl
      | cons n ns => rw [CharSet.ofMembers, if_neg hnegated]
    · simp [Bracket.expression?, hnegated, Bracket.body]
    · rw [List.flatMap_cons]
      rcases m.expression_cases with ⟨-, -, he⟩ | ⟨hm, -, -, he⟩
      · simp [he]
      · have hchar : m.char ≠ '^' := fun h =>
          hnegated ((Member.rendered_eq_plain_iff (.inr rfl)).1 (by rw [hm, h, Member.plain]))
        simpa [he] using hchar

/-- **The set of a bracket expression** is read as the set that its members stand for. -/
theorem exists_expression?_readRawSet? {b : Bracket} (hne : b.members ≠ []) :
    ∃ u, b.expression? = some ('[' :: u) ∧
      ∀ r, readRawSet? (u ++ r) = some (CharSet.ofMembers b.members, r) := by
  obtain ⟨negated, ms, hms, hset, hexpression, hfront⟩ := exists_expression?_eq hne
  refine ⟨_, hexpression, fun r => ?_⟩
  have hbody := readRawSetBody?_body negated hms r
  rw [hset, List.append_assoc, List.append_assoc, List.singleton_append]
  cases negated with
  | true => exact hbody
  | false =>
    have hhead := hfront rfl (']' :: r)
    rw [if_neg Bool.false_ne_true, List.nil_append, readRawSet?, if_neg hhead]
    exact hbody

end

/-! ## Tokens -/

/-- The part of an expression that a token leads to. -/
def Token.part (pathName : Bool) : Token → ExpressionPart
  | .literal c => ⟨.char c, false⟩
  | .anyChar => ⟨.any, false⟩
  | .anyRun => ⟨if pathName then .set ⟨true, [.single '/']⟩ else .any, true⟩
  | .bracket b => ⟨.set (CharSet.ofMembers b.members), false⟩

/-- What has a meaning is escaped. -/
theorem mem_expressionSpecials_of_operator {c : Char} (h : c ∈ expressionOperators) :
    c ∈ expressionSpecials := by
  have hall : expressionOperators.all (· ∈ expressionSpecials) = true := by decide
  simpa using List.all_eq_true.1 hall c h

/-- No operator stands at the front of a text. -/
def NoOperator (t : Text) : Prop := ∀ c, t.head? = some c → c ∉ expressionOperators

section

variable {fs : Flags} {pathName : Bool} {t : Token} {ts : List Token} {r : Text}

/-- An atom in front of a text without operator is a part. -/
theorem readPart?_of_readAtom? {u : Text} {a : ExpressionAtom} (h : readAtom? u = some (a, r))
    (hr : NoOperator r) : readPart? u = some (⟨a, false⟩, r) := by
  have hstar : r.head? ≠ some '*' := fun he => hr '*' he (by decide)
  rw [readPart?, h, Option.bind_some, if_neg hstar]

/-- A star makes a part of the atom in front of it. -/
theorem readPart?_of_readAtom?_star {u : Text} {a : ExpressionAtom}
    (h : readAtom? u = some (a, '*' :: r)) (hr : NoOperator r) :
    readPart? u = some (⟨a, true⟩, r) := by
  have hnext : r.head?.any (· ∈ expressionOperators) = false := by
    cases hc : r.head? with
    | none => rfl
    | some c => simpa using hr c hc
  rw [readPart?, h, Option.bind_some]
  simp [hnext]

/-- An opening bracket begins a set. -/
theorem readAtom?_bracket (u : Text) :
    readAtom? ('[' :: u) = (readSet? u).map fun x => (.set x.1, x.2) := by
  rw [readAtom?.eq_def]
  rfl

/-- A set is an atom if its ranges run forwards. -/
theorem readAtom?_of_readRawSet? {u : Text} {s : CharSet} (h : readRawSet? u = some (s, r))
    (hs : s.wellFormed = true) : readAtom? ('[' :: u) = some (.set s, r) := by
  rw [readAtom?_bracket, readSet?_eq, h, Option.bind_some, if_pos hs]
  rfl

/-- It is none if one of them runs backwards. -/
theorem readAtom?_of_not_wellFormed {u : Text} {s : CharSet} (h : readRawSet? u = some (s, r))
    (hs : ¬ s.wellFormed = true) : readAtom? ('[' :: u) = none := by
  rw [readAtom?_bracket, readSet?_eq, h, Option.bind_some, if_neg hs]
  rfl

/-- A character is written so that it is read as itself. -/
theorem readAtom?_literalExpression (c : Char) (r : Text) :
    readAtom? (literalExpression c ++ r) = some (.char c, r) := by
  by_cases h : c ∈ expressionSpecials
  · have hall : expressionSpecials.all (!·.isAlphanum) = true := by decide
    have halnum : c.isAlphanum = false := by simpa using List.all_eq_true.1 hall c h
    rw [literalExpression, if_pos h]
    simp [readAtom?, halnum]
  · have hne (d : Char) (hd : d ∈ expressionSpecials) : c ≠ d := fun he => h (he ▸ hd)
    have hop : c ∉ expressionOperators := fun hc => h (mem_expressionSpecials_of_operator hc)
    rw [literalExpression, if_neg h, List.singleton_append, readAtom?.eq_def]
    simp only [if_neg (hne '[' (by decide)), if_neg (hne '.' (by decide)),
      if_neg (hne '\\' (by decide)), if_neg hop]

/-- No expression of a token begins with an operator. -/
theorem noOperator_expression (pathName : Bool) (t : Token) (hr : NoOperator r) :
    NoOperator (t.expression pathName ++ r) := by
  intro c hc
  cases t with
  | literal d =>
    by_cases hd : d ∈ expressionSpecials
    · obtain rfl : '\\' = c := by simpa [Token.expression, literalExpression, hd] using hc
      decide
    · obtain rfl : d = c := by simpa [Token.expression, literalExpression, hd] using hc
      exact fun hop => hd (mem_expressionSpecials_of_operator hop)
  | anyChar =>
    obtain rfl : '.' = c := by simpa [Token.expression] using hc
    decide
  | anyRun =>
    have hfront : '[' = c ∨ '.' = c := by
      cases pathName with
      | false => exact .inr (by simpa [Token.expression] using hc)
      | true => exact .inl (by simpa [Token.expression] using hc)
    rcases hfront with rfl | rfl <;> decide
  | bracket b =>
    by_cases hb : b.members = []
    · exact hr c (by simpa [Token.expression, (Bracket.expression?_eq_none_iff b).2 hb] using hc)
    · obtain ⟨u, hu, -⟩ := exists_expression?_readRawSet? hb
      obtain rfl : '[' = c := by simpa [Token.expression, hu] using hc
      decide

/-- So no expression of tokens does. -/
theorem noOperator_flatMap (pathName : Bool) (ts : List Token) :
    NoOperator (ts.flatMap (Token.expression pathName)) := by
  induction ts with
  | nil => simp [NoOperator]
  | cons t ts ih => exact noOperator_expression pathName t ih

/-- **A token is read as its part.** -/
theorem Token.readPart?_expression (hordered : t.wellFormed = true)
    (hne : ∀ b, t = .bracket b → b.members ≠ []) (hr : NoOperator r) :
    readPart? (t.expression pathName ++ r) = some (t.part pathName, r) := by
  cases t with
  | literal c => exact readPart?_of_readAtom? (readAtom?_literalExpression c r) hr
  | anyChar => exact readPart?_of_readAtom? rfl hr
  | anyRun =>
    cases pathName with
    | false => exact readPart?_of_readAtom?_star rfl hr
    | true =>
      have hset : readRawSet? ('^' :: '/' :: ']' :: '*' :: r) =
          some (⟨true, [.single '/']⟩, '*' :: r) :=
        readRawSetBody?_body true (List.cons_ne_nil (Member.plain '/') []) ('*' :: r)
      exact readPart?_of_readAtom?_star (readAtom?_of_readRawSet? hset rfl) hr
  | bracket b =>
    obtain ⟨u, hu, hread⟩ := exists_expression?_readRawSet? (hne b rfl)
    rw [Token.wellFormed] at hordered
    rw [Token.expression, hu]
    exact readPart?_of_readAtom? (readAtom?_of_readRawSet? (hread r) hordered) hr

/-- The expression of tokens is read as their parts. -/
theorem readsExpression_flatMap (hordered : ∀ t ∈ ts, t.wellFormed = true)
    (hne : ∀ b, .bracket b ∈ ts → b.members ≠ []) :
    ReadsExpression (ts.map (Token.part pathName)) (ts.flatMap (Token.expression pathName)) := by
  induction ts with
  | nil => exact .nil
  | cons t ts ih =>
    refine .cons (Token.readPart?_expression (hordered t List.mem_cons_self) ?_
      (noOperator_flatMap pathName ts)) (ih ?_ ?_)
    · rintro b rfl
      exact hne b List.mem_cons_self
    · exact fun u hu => hordered u (List.mem_cons_of_mem t hu)
    · exact fun b hb => hne b (List.mem_cons_of_mem t hb)

/-- The small letters that differ from their capital letters begin with the `a`: a code point in front
of it is the small letter of no other one. -/
theorem eq_of_smallCode_eq {n k : Nat} (hk : k < 97) (h : smallCode n = k) : n = k := by
  have hruns : ∀ r ∈ smallRuns, 97 ≤ (r.first : Int) + r.shift := by decide +kernel
  rw [smallCode] at h
  cases hs : smallShift? n smallRuns with
  | none =>
    rw [hs] at h
    exact h
  | some shift =>
    rw [hs] at h
    obtain ⟨r, hr, hholds, rfl⟩ := exists_run_of_smallShift? hs
    have hfirst : r.first ≤ n := by
      simp only [CaseRun.holds, Bool.and_eq_true, decide_eq_true_eq] at hholds
      exact hholds.1.1
    have hbound := hruns r hr
    simp only at h
    omega

/-- No other character is the same letter as the separator. -/
theorem sameLetter_separator {c : Char} : sameLetter '/' c = true ↔ c = '/' := by
  have hgroup : capitalGroup (smallCode '/'.toNat) = [47] := by decide +kernel
  constructor
  · intro h
    rw [sameLetter, hgroup] at h
    have hcode : c.toNat = '/'.toNat := eq_of_smallCode_eq (by decide) (by simpa using h)
    exact Char.toNat_inj.1 hcode
  · rintro rfl
    exact sameLetter_self '/'

/-- A token and its part take the same texts. -/
theorem Token.takes_part_iff {u : Text} :
    (t.part (fs.has .pathName)).Takes (fs.has .ignoreCase) u ↔ t.Takes fs u := by
  by_cases hrun : t = .anyRun
  · subst hrun
    have hholds : ∀ c, (Token.part (fs.has .pathName) .anyRun).atom.holds (fs.has .ignoreCase) c =
        fs.inRun c := by
      intro c
      have hseparator : sameLetter '/' c = ('/' == c) := by
        rw [Bool.eq_iff_iff, sameLetter_separator, beq_iff_eq, eq_comm]
      have hplane : isSupplementary '/' = false := by decide
      cases hpath : fs.has .pathName with
      | false => simp [Token.part, ExpressionAtom.holds, Flags.inRun, hpath]
      | true =>
        cases fs.has .ignoreCase <;>
          simp [Token.part, ExpressionAtom.holds, CharSet.holds, SetItem.holds, SetItem.holdsAnyCase,
            Flags.inRun, hpath, hseparator, hplane, BEq.comm]
    rw [takes_anyRun_iff, ExpressionPart.Takes]
    simp only [hholds]
    rfl
  · rw [Token.takes_iff hrun]
    cases t with
    | anyRun => exact absurd rfl hrun
    | _ => rfl

end

/-- **The regular expression of a segment matches the names that the segment accepts.** -/
theorem Segment.accepts_iff_expression {fs : Flags} {pattern : Text} {s : Segment}
    (h : Segment.compile? fs pattern = some s) (name : Text) :
    s.accepts fs name = true ↔ ExpressionMatches (fs.has .ignoreCase) (s.expression fs) name := by
  obtain ⟨hspells, hordered⟩ := Segment.compile?_eq_some_iff.1 h
  have hread : ReadsExpression (s.tokens.map (Token.part (fs.has .pathName))) (s.expression fs) :=
    readsExpression_flatMap (fun t ht => Token.wellFormed_iff.2 (hordered t ht))
      fun _ => hspells.members_ne_nil
  have htakes : ∀ us, List.Forall₂ (ExpressionPart.Takes (fs.has .ignoreCase))
      (s.tokens.map (Token.part (fs.has .pathName))) us ↔
        List.Forall₂ (Token.Takes fs) s.tokens us := by
    intro us
    simp only [List.forall₂_map_left_iff, Token.takes_part_iff]
  rw [Segment.accepts, tokensAccept_iff]
  constructor
  · rintro ⟨us, hcut, hus⟩
    exact ⟨_, us, hread, hcut, (htakes us).2 hus⟩
  · rintro ⟨ps, us, hps, hcut, hus⟩
    rw [hps.unique hread] at hus
    exact ⟨us, hcut, (htakes us).1 hus⟩

/-! ## Names -/

/-- **Segments match as they are spelled.** The empty segment matches the empty name alone. Any other
one has to spell tokens whose classes are well-formed; the whole name is cut into texts that these
take in order; and unless a flag asks for them, a name that starts with a dot is matched only if the
first token spells the dot out. The regular expression of a segment that can be compiled is a text
that an engine reads, by the rules of its language, so that it matches exactly the names that the
tokens use up. -/
theorem nameMatches_iff_spelled (fs : Flags) (pattern name : Text) :
    (nameMatches fs pattern name = true ↔
      (pattern = [] ∧ name = []) ∨
        (pattern ≠ [] ∧ ∃ ts, Spells fs.escapes ts pattern ∧ (∀ t ∈ ts, t.IsOrdered) ∧
          (∃ us, name = us.flatten ∧ List.Forall₂ (Token.Takes fs) ts us) ∧
          (fs.has .dotMatch = false → name.head? = some '.' →
            ∃ t ts', ts = t :: ts' ∧ t.SpellsDot))) ∧
      ∀ s, Segment.compile? fs pattern = some s →
        (ExpressionMatches (fs.has .ignoreCase) (s.expression fs) name ↔
          ∃ us, name = us.flatten ∧ List.Forall₂ (Token.Takes fs) s.tokens us) := by
  refine ⟨nameMatches_iff fs pattern name, fun s hs => ?_⟩
  rw [← Segment.accepts_iff_expression hs, Segment.accepts, tokensAccept_iff]

/-- The tokens of `[^a-c]*\*`. -/
def starSegment : Segment :=
  ⟨[.bracket ⟨[.plain '^', .plain 'a', .plain '-', .plain 'c']⟩, .anyRun, .literal '*']⟩

/-- The segment `[^a-c]*\*` matches the name `x1*`, and so does its regular expression. -/
theorem nameMatches_starSegment :
    Segment.compile? (Flags.ofFlag .pathName) "[^a-c]*\\*".toList = some starSegment ∧
      nameMatches (Flags.ofFlag .pathName) "[^a-c]*\\*".toList "x1*".toList = true ∧
      ExpressionMatches false (starSegment.expression (Flags.ofFlag .pathName)) "x1*".toList := by
  have hcompile : Segment.compile? (Flags.ofFlag .pathName) "[^a-c]*\\*".toList =
      some starSegment := by decide +kernel
  have haccepts : tokensAccept (Flags.ofFlag .pathName) starSegment.tokens "x1*".toList = true := by
    decide +kernel
  have hspelled := nameMatches_iff_spelled (Flags.ofFlag .pathName) "[^a-c]*\\*".toList "x1*".toList
  obtain ⟨hspells, hordered⟩ := Segment.compile?_eq_some_iff.1 hcompile
  have hcut := tokensAccept_iff.1 haccepts
  have hvisible : "x1*".toList.head? ≠ some '.' := by decide
  exact ⟨hcompile,
    hspelled.1.2 (.inr ⟨by decide, _, hspells, hordered, hcut, fun _ h => absurd h hvisible⟩),
    (hspelled.2 _ hcompile).2 hcut⟩

end PathGlob
